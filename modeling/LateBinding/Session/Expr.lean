import LateBinding.Session.Edit

namespace LateBinding

/-- What an expression can ask about the method that is running. -/
inductive MethodField where
  | name
  | owner
  | visibility
  | generation
deriving DecidableEq

/-- A fault as a program writes it down. -/
inductive RaisedFault where
  | fixed (f : Fault)
  | noMethod (receiver : String) (name : Symbol) (args : List Literal) (reason : Unavailable)

/-- What an expression knows of where it is evaluated. Blocks and actions run in no method, and have
no receiver but nil. -/
structure Scope where
  method : Option (Method Unit)
  receiver : Value
  args : List Value
  hasBlock : Bool
  /-- The superclass of a class that is made without one. -/
  defaultSuperclass : Option ClassId

mutual

/-- An expression, which stands for a script that evaluates its parts from left to right. Labels in it are
looked up when the script gets there. -/
inductive Expr where
  | literal (l : Literal)
  | self
  /-- An argument by its position; nil if there are not so many. -/
  | argument (position : Nat)
  | argumentCount
  | hasBlock
  | method (field : MethodField)
  /-- Calls the block. -/
  | yield (args : Arguments)
  /-- The sum of the integers among values, modulo the 64 bits of an integer. -/
  | sum (args : Arguments)
  | raise (f : RaisedFault)
  | send (receiver : Expr) (name : Symbol) (args : Arguments) (ignoreVisibility passBlock : Bool)
  | respondsTo (receiver : Expr) (name : Symbol) (includePrivate : Bool)
  /-- The owner of the method that a receiver has; nil if it has none. -/
  | ownerOf (receiver : Expr) (name : Symbol)
  | effectiveClass (receiver : Expr)
  | getVariable (name : Symbol)
  | setVariable (name : Symbol) (value : Expr)
  /-- The last value of several expressions. -/
  | sequence (parts : List Expr)
  | conditional (test yes no : Expr)
  | equal (a b : Expr)
  /-- A symbol or a text begins with given characters. -/
  | startsWith (e : Expr) (start : String)
  | log (e : Expr)
  | define (owner : ClassRef) (name : Symbol) (visibility : Visibility) (flags : MethodFlags)
    (body : Expr)
  | edit (e : LabelledEdit)
  | submit (action : Expr)
  | interrupt (reason : String)
  | sendVia (site : String) (receiver : Expr) (name : Symbol) (args : Arguments)

/-- The arguments of a call. -/
inductive Arguments where
  | list (parts : List Expr)
  /-- All arguments of the running body. -/
  | all
  /-- All arguments of the running body but the first. -/
  | rest

end

namespace Scope

/-- The scope of a method body. -/
def ofInvocation (defaultSuperclass : Option ClassId) (inv : Invocation) : Scope :=
  ⟨some inv.method, inv.receiver, inv.args, inv.hasBlock, defaultSuperclass⟩

/-- The scope of a block. -/
def ofBlock (defaultSuperclass : Option ClassId) (args : List Value) : Scope :=
  ⟨none, .nil, args, false, defaultSuperclass⟩

/-- What the scope says about the running method; nil if there is none. -/
def field (s : Scope) (f : MethodField) (k : Value → Script) : Script :=
  match s.method with
  | none => k .nil
  | some m =>
    match f with
    | .name => k (.symbol m.name)
    | .owner => k (.module m.owner)
    | .visibility => .ask (.freshText m.visibility.text) k
    | .generation => k (.integer (Int64.ofNat m.generation))

end Scope

/-- The sum of the integers among values, modulo the 64 bits of an integer. -/
def sumOfIntegers (vs : List Value) : Int64 := (vs.filterMap Value.integer?).foldl (· + ·) 0

/-- A symbol or a text begins with given characters. -/
def Value.startsWith (start : String) (v : Value) : Bool :=
  v.name?.any fun name => start.toList.isPrefixOf name.text.toList

/-- Ends with the fault that is written down. -/
def RaisedFault.script : RaisedFault → Script
  | fixed f => .fail f
  | noMethod receiver name args reason =>
    Literal.scriptAll args fun args => .fail (.noMethod receiver name args reason)

/-- The literal that an expression is, if it is one. -/
def Expr.literal? : Expr → Option Literal
  | .literal l => some l
  | _ => none

/-- Defines a method when the script gets there: one that returns a constant, if its body is a
literal, or one with the given body. -/
def Script.define (owner : ClassRef) (name : Symbol) (visibility : Visibility)
    (flags : MethodFlags) (constant : Option Literal) (body : Body) (k : Script) : Script :=
  .withNoted (fun n => n.cls owner) fun id =>
    let finish (body : Body) : Script :=
      .change (.define id name visibility body flags) fun _ => k
    match constant with
    | some l => l.script fun v => finish (.constant v)
    | none => finish body

mutual

/-- Evaluates an expression and goes on with its value. -/
def Expr.script (s : Scope) : Expr → (Value → Script) → Script
  | .literal l, k => l.script k
  | .self, k => k s.receiver
  | .argument position, k => k (s.args.getD position .nil)
  | .argumentCount, k => k (.integer (Int64.ofNat s.args.length))
  | .hasBlock, k => k (.bool s.hasBlock)
  | .method field, k => s.field field k
  | .yield args, k =>
    if s.hasBlock then
      args.script s fun vs => .yield vs (Script.orFail fun d => k d.toValue)
    else .fail .noBlockGiven
  | .sum args, k => args.script s fun vs => k (.integer (sumOfIntegers vs))
  | .raise f, _ => f.script
  | .send receiver name args ignoreVisibility passBlock, k =>
    receiver.script s fun r =>
      args.script s fun vs =>
        .send r name vs (if passBlock then .callers else .nothing) ignoreVisibility k
  | .respondsTo receiver name includePrivate, k =>
    receiver.script s fun r => .respondsTo r name includePrivate fun b => k (.bool b)
  | .ownerOf receiver name, k =>
    receiver.script s fun r =>
      .ask (.findMethod r name) fun found =>
        k (match found with
          | some m => .module m.owner
          | none => .nil)
  | .effectiveClass receiver, k =>
    receiver.script s fun r => .ask (.effectiveClass r) fun id => k (.module id)
  | .getVariable name, k =>
    match s.receiver with
    | .object o => .ask (.getVariable o name) k
    | _ => k .nil
  | .setVariable name value, k =>
    value.script s fun v =>
      match s.receiver with
      | .object o => .ask (.setVariable o name v) fun _ => k v
      | _ => k v
  | .sequence parts, k => Expr.scriptAll s parts fun vs => k (vs.getLastD .nil)
  | .conditional test yes no, k =>
    test.script s fun v => if v.isTruthy then yes.script s k else no.script s k
  | .equal a b, k => a.script s fun v => b.script s fun v' => k (.bool (v.equal v'))
  | .startsWith e start, k => e.script s fun v => k (.bool (v.startsWith start))
  | .log e, k => e.script s fun v => .ask (.note fun n => n.write v) fun _ => k v
  | .define owner name visibility flags body, k =>
    .define owner name visibility flags body.literal?
      (fun inv => body.script (.ofInvocation s.defaultSuperclass inv) .answer) (k .nil)
  | .edit e, k => e.script s.defaultSuperclass (k .nil)
  | .submit action, k =>
    .submit (action.script (.ofBlock s.defaultSuperclass []) .answer) (k .nil)
  | .interrupt reason, k => .submit (.fail (.interrupted reason)) (k .nil)
  | .sendVia site receiver name args, k =>
    .withNoted (fun n => n.site site) fun id =>
      receiver.script s fun r => args.script s fun vs => .sendVia id r name vs k

/-- Evaluates expressions from left to right and goes on with their values. -/
def Expr.scriptAll (s : Scope) : List Expr → (List Value → Script) → Script
  | [], k => k []
  | e :: es, k => e.script s fun v => Expr.scriptAll s es fun vs => k (v :: vs)

/-- Evaluates arguments and goes on with their values. -/
def Arguments.script (s : Scope) : Arguments → (List Value → Script) → Script
  | .list parts, k => Expr.scriptAll s parts k
  | .all, k => k s.args
  | .rest, k => k s.args.tail

end

namespace Expr

/-- The method body that an expression stands for. -/
def body (e : Expr) (defaultSuperclass : Option ClassId) : Body := fun inv =>
  e.script (.ofInvocation defaultSuperclass inv) .answer

/-- The block that an expression stands for. -/
def block (e : Expr) (defaultSuperclass : Option ClassId) : Block where
  body args := e.script (.ofBlock defaultSuperclass args) .answer
  outer := none

/-- The action that an expression stands for. -/
def action (e : Expr) (defaultSuperclass : Option ClassId) : Script :=
  e.script (.ofBlock defaultSuperclass []) .answer

end Expr

end LateBinding
