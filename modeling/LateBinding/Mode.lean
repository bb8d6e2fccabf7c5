import LateBinding.Method

namespace LateBinding

/-- What is done with the method that a call finds. -/
inductive Action where
  | call
  | respondTo
deriving DecidableEq, Inhabited

/-- What is done when a call finds no method. -/
inductive OnMissing where
  /-- The hook for missing methods is run. -/
  | raise
  /-- The caller is told. -/
  | answer
deriving DecidableEq, Inhabited

/-- How a call is carried out. -/
structure Mode where
  /-- Every method may be found. -/
  ignoreVisibility : Bool
  /-- Protected methods may not be found. -/
  onlyPublic : Bool
  action : Action
  onMissing : OnMissing
deriving DecidableEq, Inhabited

namespace Mode

/-- A call from outside. -/
def publicCall : Mode := ⟨false, true, .call, .raise⟩

/-- A call from an instance of a related class. -/
def protectedCall : Mode := ⟨false, false, .call, .raise⟩

/-- A call of the receiver on itself. -/
def privateCall : Mode := ⟨true, false, .call, .raise⟩

/-- Asks for a method that can be called from outside. -/
def publicRespond : Mode := ⟨false, true, .respondTo, .raise⟩

/-- Asks for any method. -/
def privateRespond : Mode := ⟨true, false, .respondTo, .raise⟩

/-- A call of the receiver on itself that tells if there is no method. -/
def privateOrMissing : Mode := ⟨true, false, .call, .answer⟩

/-- A call from outside that tells if there is no method. -/
def publicOrMissing : Mode := ⟨false, true, .call, .answer⟩

/-- A method of this visibility may be found. -/
def allows (mode : Mode) (v : Visibility) : Bool :=
  mode.ignoreVisibility ||
    match v with
    | .pub => true
    | .prot => !mode.onlyPublic
    | .priv => false

/-- The method is only asked for. -/
def isRespondTo (mode : Mode) : Bool := mode.action = .respondTo

/-- The caller is told if there is no method. -/
def returnsMissing (mode : Mode) : Bool := mode.onMissing = .answer

/-- The mode that asks for what a mode would find. -/
def asking (mode : Mode) : Mode := { mode with action := .respondTo, onMissing := .raise }

end Mode

/-- What a call comes to. -/
inductive Dispatched where
  | returned (v : Value)
  | responds (b : Bool)
  | missing
deriving DecidableEq

namespace Dispatched

/-- The answer as a value: nil if there is no method. -/
def toValue : Dispatched → Value
  | returned v => v
  | responds b => .bool b
  | missing => .nil

/-- The answer as a truth value: false if there is no method. -/
def toBool : Dispatched → Bool
  | returned v => v.isTruthy
  | responds b => b
  | missing => false

def isMissing : Dispatched → Bool
  | missing => true
  | _ => false

/-- The two readings of an answer agree. -/
theorem toBool_eq_isTruthy (d : Dispatched) : d.toBool = d.toValue.isTruthy := by
  cases d with
  | returned v => rfl
  | responds b => cases b <;> rfl
  | missing => rfl

end Dispatched

end LateBinding
