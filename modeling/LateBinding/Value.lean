import LateBinding.Binary64
import LateBinding.Symbol

namespace LateBinding

/-- The place of a class, module or singleton class in the hierarchy. It stands for a number of 32 bits, so
that the results are about fewer than `2 ^ 32` records. -/
structure ClassId where
  index : Nat
deriving DecidableEq, Inhabited

/-- An object of the runtime: its identity and the class it was made from. -/
structure ObjectRef where
  serial : Nat
  declaredClass : ClassId
deriving DecidableEq, Inhabited

/-- A text of the runtime: its identity and its characters, neither of which ever changes. -/
structure TextRef where
  serial : Nat
  text : String
deriving DecidableEq, Inhabited

/-- An object of the embedding program: its identity and the name of its type there. -/
structure ForeignRef where
  serial : Nat
  typeName : String
deriving DecidableEq, Inhabited

/-- A value that methods receive and return. -/
inductive Value where
  | nil
  | bool (b : Bool)
  | integer (i : Int64)
  | float (x : Binary64)
  | symbol (s : Symbol)
  | text (t : TextRef)
  /-- A class or a module as a value. -/
  | module (id : ClassId)
  | object (o : ObjectRef)
  | foreign (f : ForeignRef)
deriving DecidableEq, Inhabited

/-- Where a value comes from. -/
inductive Value.Origin where
  | primitive
  | native
  | foreign
deriving DecidableEq

namespace Value

/-- Whether a value is plain data, belongs to the object model, or to the embedding program. -/
def origin : Value → Origin
  | module _ | object _ => .native
  | foreign _ => .foreign
  | _ => .primitive

/-- Everything but nil and false counts as true. -/
def isTruthy : Value → Bool
  | nil | bool false => false
  | _ => true

def isNil : Value → Bool
  | nil => true
  | _ => false

def isForeign : Value → Bool
  | foreign _ => true
  | _ => false

def isObject : Value → Bool
  | object _ => true
  | _ => false

def integer? : Value → Option Int64
  | integer i => some i
  | _ => none

def symbol? : Value → Option Symbol
  | symbol s => some s
  | _ => none

def module? : Value → Option ClassId
  | module id => some id
  | _ => none

def text? : Value → Option String
  | text t => some t.text
  | _ => none

/-- The name that a value can stand for: a symbol, or a text with the same characters. -/
def name? : Value → Option Symbol
  | symbol s => some s
  | text t => some ⟨t.text⟩
  | _ => none

/-- Sameness of values: numbers of one kind by their value, texts by their characters, objects and
foreign objects by their identity. -/
def equal : Value → Value → Bool
  | nil, nil => true
  | bool a, bool b => a == b
  | integer a, integer b => a == b
  | float a, float b => a.equal b
  | symbol a, symbol b => a == b
  | text a, text b => a.text == b.text
  | module a, module b => a == b
  | object a, object b => a == b
  | foreign a, foreign b => a == b
  | _, _ => false

/-- Sameness of identity: texts too are the same only if they are one text. -/
def identical : Value → Value → Bool
  | text a, text b => a == b
  | a, b => a.equal b

/-- Identity is finer than sameness. -/
theorem equal_of_identical {a b : Value} (hidentical : a.identical b = true) :
    a.equal b = true := by
  cases a <;> cases b <;> simp_all [identical, equal]

/-- Only floating-point numbers can differ from themselves. -/
theorem identical_self {a : Value} (hfloat : ∀ x, a ≠ float x) : a.identical a = true := by
  cases a <;> simp_all [identical, equal]

end Value

end LateBinding
