import LateBinding.Method
import LateBinding.Table

namespace LateBinding

/-- Marks of a record, fixed when it is made. -/
structure ClassFlags where
  /-- A module, which can be included and has no superclass. -/
  isModule : Bool := false
  /-- The class of one object, class or module. -/
  isSingleton : Bool := false
  /-- A class whose instances are plain data. -/
  isImmediate : Bool := false
  /-- The class that stands for all foreign objects. -/
  isForeign : Bool := false
deriving DecidableEq, Inhabited

/-- A list of ancestors together with the epoch in which it was computed. -/
structure AncestorMemo where
  epoch : Nat
  list : List ClassId
deriving DecidableEq

/-- A class, module or singleton class. Its stamp is a number of the hierarchy's, of 64 bits like those. -/
structure Record (τ : Type) where
  name : String
  flags : ClassFlags
  superclass : Option ClassId
  /-- The included modules, in the order in which they were included. -/
  includes : List ClassId
  methods : Table Symbol (Method τ)
  /-- The number of the last change that concerns look-ups from this record. -/
  stamp : Nat
  memo : Option AncestorMemo
  /-- The singleton class of this class or module as a value. -/
  metaclass : Option ClassId

namespace Record

variable {τ : Type}

/-- A record without methods, included modules or metaclass. -/
def new (name : String) (flags : ClassFlags) (superclass : Option ClassId) (stamp : Nat) :
    Record τ :=
  { name, flags, superclass, includes := [], methods := .empty, stamp, memo := none,
    metaclass := none }

def isModule (r : Record τ) : Bool := r.flags.isModule

def isSingleton (r : Record τ) : Bool := r.flags.isSingleton

/-- The instances of the record cannot have a singleton class. -/
def forbidsSingletons (r : Record τ) : Bool := r.flags.isImmediate || r.flags.isForeign

/-- The entry for a name in the record's own table. -/
def own? (r : Record τ) (name : Symbol) : Option (Method τ) := r.methods.get? name

def defines (r : Record τ) (name : Symbol) : Bool := r.methods.contains name

/-- The record with an entry in its own table, under the entry's name. -/
def withMethod (r : Record τ) (m : Method τ) : Record τ :=
  { r with methods := r.methods.insert m.name m }

/-- The record without its own entry for a name. -/
def withoutMethod (r : Record τ) (name : Symbol) : Record τ :=
  { r with methods := r.methods.erase name }

/-- The list of ancestors computed in an epoch, if it is still known. -/
def remembered? (r : Record τ) (epoch : Nat) : Option (List ClassId) :=
  match r.memo with
  | some memo => if memo.epoch = epoch then some memo.list else none
  | none => none

end Record

end LateBinding
