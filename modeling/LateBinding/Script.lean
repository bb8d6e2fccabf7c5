import LateBinding.Hierarchy.Edit
import LateBinding.Mode
import LateBinding.Notebook

namespace LateBinding

/-- What a method body knows of the call that runs it. -/
structure Invocation where
  method : Method Unit
  receiver : Value
  args : List Value
  /-- The caller has passed a block. -/
  hasBlock : Bool

/-- The way by which a call looks for its method. -/
inductive Route where
  /-- Afresh, in a given mode. -/
  | uncached (mode : Mode)
  /-- Through a call site, in the mode of the site. -/
  | site (id : Nat)
deriving DecidableEq

def Route.isSite : Route → Bool
  | uncached _ => false
  | site _ => true

/-- A call that a script makes. -/
structure Call where
  route : Route
  receiver : Value
  name : Symbol
  args : List Value
deriving DecidableEq

/-- What a script passes for a block. -/
inductive Passing (β : Type) where
  | nothing
  /-- The block that was passed to the script. -/
  | callers
  /-- A block of the script's own. -/
  | own (body : β)

/-- A question that is answered at once, without running a script. -/
inductive Query where
  /-- The method that the receiver has for a name, whoever may call it. -/
  | findMethod (receiver : Value) (name : Symbol)
  /-- The same method, which is also kept, so that scripts can run it under its number. -/
  | keepMethod (receiver : Value) (name : Symbol)
  /-- The class from which look-ups for a receiver begin. -/
  | effectiveClass (receiver : Value)
  | classOf (v : Value)
  | describe (v : Value)
  /-- The singleton class of a value, made if need be. -/
  | singletonClassOf (v : Value)
  | getVariable (o : ObjectRef) (name : Symbol)
  | setVariable (o : ObjectRef) (name : Symbol) (v : Value)
  /-- A text of its own with these characters. -/
  | freshText (text : String)
  /-- The notebook after a change. -/
  | note (change : Notebook → Notebook)

/-- What a question is answered with. -/
def Query.Answer : Query → Type
  | findMethod .. => Option (Method Unit)
  | keepMethod .. => Option (Nat × Method Unit)
  | effectiveClass _ | classOf _ => ClassId
  | describe _ => String
  | singletonClassOf _ => Except Fault ClassId
  | getVariable .. | freshText _ => Value
  | setVariable .. => Unit
  | note _ => Notebook

/-- What a method body does: a tree of questions to the runtime, each of which goes on with the answer. -/
inductive Script where
  | done (outcome : Except Fault Value)
  | call (c : Call) (block : Passing (List Value → Script)) (k : Except Fault Dispatched → Script)
  /-- Runs a method that is kept, whatever a look-up would find by now. -/
  | invoke (kept : Nat) (receiver : Value) (args : List Value) (block : Passing (List Value → Script))
    (k : Except Fault Dispatched → Script)
  /-- Calls the block that was passed to the script. -/
  | yield (args : List Value) (k : Except Fault Dispatched → Script)
  /-- Asks something of the hierarchy. Methods that it defines have bodies. -/
  | edit (e : Edit (Invocation → Script)) (k : Except Fault Edited → Script)
  /-- Leaves an action to be run at a safepoint. -/
  | submit (action : Script) (k : Script)
  | ask (q : Query) (k : q.Answer → Script)

/-- What a method does when it is called. -/
abbrev Body := Invocation → Script

/-- A block: what it does when it is called, and the block that was passed to the script which made it. -/
structure Block where
  body : List Value → Script
  outer : Option Block

/-- The block that is passed by a script which was called with a block or without one. -/
def Passing.block? : Passing (List Value → Script) → Option Block → Option Block
  | nothing, _ => none
  | callers, block => block
  | own body, block => some ⟨body, block⟩

/-- A body with an identity: copies of a method share it. -/
structure Target where
  serial : Nat
  body : Body

namespace Script

def answer (v : Value) : Script := .done (.ok v)

def fail (f : Fault) : Script := .done (.error f)

/-- Goes on with a result, or ends with its fault. -/
def orFail {α : Type} (k : α → Script) : Except Fault α → Script
  | .ok a => k a
  | .error f => .fail f

/-- Calls a method and goes on with the value. -/
def send (receiver : Value) (name : Symbol) (args : List Value)
    (block : Passing (List Value → Script)) (ignoreVisibility : Bool) (k : Value → Script) : Script :=
  let mode : Mode := if ignoreVisibility then .privateCall else .publicCall
  .call ⟨.uncached mode, receiver, name, args⟩ block (orFail fun d => k d.toValue)

/-- Asks whether a receiver has a method and goes on with the answer. -/
def respondsTo (receiver : Value) (name : Symbol) (includePrivate : Bool) (k : Bool → Script) :
    Script :=
  let mode : Mode := if includePrivate then .privateRespond else .publicRespond
  .call ⟨.uncached mode, receiver, name, []⟩ .nothing (orFail fun d => k d.toBool)

/-- Calls a method through a call site and goes on with the value. -/
def sendVia (site : Nat) (receiver : Value) (name : Symbol) (args : List Value)
    (k : Value → Script) : Script :=
  .call ⟨.site site, receiver, name, args⟩ .nothing (orFail fun d => k d.toValue)

/-- Asks something of the hierarchy and goes on unless it is refused. -/
def change (e : Edit Body) (k : Edited → Script) : Script := .edit e (orFail k)

end Script

/-- The body that returns the same value at every call. -/
def Body.constant (v : Value) : Body := fun _ => .answer v

end LateBinding
