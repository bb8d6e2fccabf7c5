import LateBinding.Fault
import LateBinding.Mode
import LateBinding.Table

namespace LateBinding

/-- What calling a member comes to. -/
inductive ForeignOutcome where
  | returned (v : Value)
  | failed (cause : ForeignFault)
  /-- The embedding program gave up. -/
  | aborted
deriving DecidableEq

/-- What an object of the embedding program answers. -/
structure ForeignObject where
  hasMember : String → Bool
  invoke : String → List Value → ForeignOutcome

instance : Inhabited ForeignObject :=
  ⟨⟨fun _ => false, fun name _ => .failed (.unknownIdentifier name)⟩⟩

/-- The outcome of calling a member, as the runtime reports it. -/
def ForeignOutcome.report (f : ForeignRef) (name : Symbol) :
    ForeignOutcome → Except Fault Dispatched
  | returned v => .ok (.returned v)
  | failed cause => .error (.foreignFailed f.typeName name cause)
  | aborted => .error (.foreignAborted f.typeName name)

/-- What a call of a foreign object comes to. -/
def ForeignObject.dispatch (object : ForeignObject) (f : ForeignRef) (name : Symbol)
    (args : List Value) (mode : Mode) : Except Fault Dispatched :=
  if mode.isRespondTo then .ok (.responds (object.hasMember name.text))
  else if mode.returnsMissing && !object.hasMember name.text then .ok .missing
  else (object.invoke name.text args).report f name

/-- What a member does when it is called. -/
inductive Member.Behaviour where
  | value (v : Value)
  /-- Answers the number of its arguments. -/
  | count
  /-- Answers one of its arguments, or nil if there are not so many. -/
  | echo (position : Nat)
  | fail (cause : ForeignFault)
  | abort
deriving DecidableEq

/-- A member of a foreign object that is given by a table. -/
structure Member where
  /-- The object does not admit to having the member. -/
  hidden : Bool
  /-- The number of arguments that the member insists on. -/
  arity : Option Nat
  behaviour : Member.Behaviour
deriving DecidableEq

/-- What calling a member of a table comes to. -/
def Member.invoke (m : Member) (args : List Value) : ForeignOutcome :=
  let run : ForeignOutcome :=
    match m.behaviour with
    | .value v => .returned v
    | .count => .returned (.integer (Int64.ofNat args.length))
    | .echo position => .returned (args.getD position .nil)
    | .fail cause => .failed cause
    | .abort => .aborted
  match m.arity with
  | some expected => if expected = args.length then run else .failed (.arity expected args.length)
  | none => run

/-- The foreign object with the members of a table. -/
def ForeignObject.ofMembers (members : Table String Member) : ForeignObject where
  hasMember name := (members.get? name).any fun m => !m.hidden
  invoke name args :=
    match members.get? name with
    | some m => m.invoke args
    | none => .failed (.unknownIdentifier name)

/-- Asking never runs a member. -/
theorem ForeignObject.dispatch_respondTo {object : ForeignObject} {f : ForeignRef} {name : Symbol}
    {args : List Value} {mode : Mode} (hmode : mode.isRespondTo = true) :
    object.dispatch f name args mode = .ok (.responds (object.hasMember name.text)) := by
  simp [dispatch, hmode]

/-- Every failure of a foreign object is a type fault. -/
theorem ForeignObject.kind_of_dispatch_error {object : ForeignObject} {f : ForeignRef}
    {name : Symbol} {args : List Value} {mode : Mode} {fault : Fault}
    (herror : object.dispatch f name args mode = .error fault) : fault.kind = .type := by
  simp only [dispatch] at herror
  split at herror
  · cases herror
  · split at herror
    · cases herror
    · generalize object.invoke name.text args = outcome at herror
      cases outcome <;> simp only [ForeignOutcome.report] at herror <;> cases herror <;> rfl

end LateBinding
