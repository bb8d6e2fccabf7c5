import LateBinding.CoreClasses
import LateBinding.Script
import LateBinding.Value.Inspect

namespace LateBinding

/-- How many arguments a method takes. -/
structure Arity where
  least : Nat
  most : Option Nat
deriving DecidableEq

namespace Arity

def exactly (n : Nat) : Arity := ⟨n, some n⟩

def atLeast (n : Nat) : Arity := ⟨n, none⟩

def between (least most : Nat) : Arity := ⟨least, some most⟩

/-- The method takes a given number of arguments. -/
def admits (a : Arity) (given : Nat) : Bool := a.least ≤ given && a.most.all (given ≤ ·)

def text (a : Arity) : String :=
  match a.most with
  | none => s!"{a.least}+"
  | some most => if a.least = most then s!"{most}" else s!"{a.least}..{most}"

end Arity

namespace Kernel

/-- Goes on if the number of arguments is right. -/
def checkingArity (a : Arity) (inv : Invocation) (k : Script) : Script :=
  if a.admits inv.args.length then k else .fail (.wrongArity inv.args.length a.text)

/-- Goes on with the name that a value stands for. -/
def withName (v : Value) (k : Symbol → Script) : Script :=
  match v.name? with
  | some name => k name
  | none => .fail (.notAName v.inspect)

/-- Why a call has not found a method: it is hidden, or there is none that is not public. -/
def unavailable : Option (Method Unit) → Unavailable
  | some m =>
    match m.visibility with
    | .priv => .privateMethod
    | .prot => .protectedMethod
    | .pub => .undefined
  | none => .undefined

/-- The hook for missing methods: reports which method is missing, and why. -/
def methodMissing : Body := fun inv =>
  match inv.args with
  | [] => .fail .noNameGiven
  | first :: rest =>
    withName first fun name =>
      .ask (.findMethod inv.receiver name) fun found =>
        .ask (.describe inv.receiver) fun receiver =>
          .fail (.noMethod receiver name rest (unavailable found))

/-- Calls the method named by the first argument with the other ones. -/
def sendWith (ignoreVisibility : Bool) : Body := fun inv =>
  checkingArity (.atLeast 1) inv <|
    withName (inv.args.headD .nil) fun name =>
      .send inv.receiver name inv.args.tail .callers ignoreVisibility .answer

/-- Calls any method by its name. -/
def send : Body := sendWith true

/-- Calls a public method by its name. -/
def publicSend : Body := sendWith false

/-- Whether the receiver has a method, or else claims the name by its hook. -/
def respondTo : Body := fun inv =>
  checkingArity (.between 1 2) inv <|
    withName (inv.args.headD .nil) fun name =>
      let includeAll := (inv.args.getD 1 .nil).isTruthy
      .respondsTo inv.receiver name includeAll fun responds =>
        if responds then .answer (.bool true)
        else
          .respondsTo inv.receiver .respondToMissing true fun hooked =>
            if hooked then
              .send inv.receiver .respondToMissing [.symbol name, .bool includeAll] .nothing true
                fun v => .answer (.bool v.isTruthy)
            else .answer (.bool false)

/-- The hook by which a receiver claims names: it claims none. -/
def respondToMissing : Body := fun inv =>
  checkingArity (.exactly 2) inv <| .answer (.bool false)

def classOf : Body := fun inv =>
  checkingArity (.exactly 0) inv <| .ask (.classOf inv.receiver) fun id => .answer (.module id)

def singletonClass : Body := fun inv =>
  checkingArity (.exactly 0) inv <|
    .ask (.singletonClassOf inv.receiver) <| Script.orFail fun id => .answer (.module id)

/-- The definition of a method that the runtime provides. -/
def builtin (owner : ClassId) (name : Symbol) (visibility : Visibility) (body : Body) :
    Edit Body :=
  .define owner name visibility body { builtin := true }

/-- The definitions of all kernel methods, in the order in which they are made. -/
def definitions (core : CoreClasses) : List (Edit Body) :=
  [builtin core.basicObject .methodMissing .priv methodMissing,
    builtin core.basicObject .underscoreSend .pub send,
    builtin core.kernel .send .pub send,
    builtin core.kernel .publicSend .pub publicSend,
    builtin core.kernel .respondTo .pub respondTo,
    builtin core.kernel .respondToMissing .priv respondToMissing,
    builtin core.kernel .classOf .pub classOf,
    builtin core.kernel .singletonClass .pub singletonClass]

end Kernel

end LateBinding
