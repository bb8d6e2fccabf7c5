import LateBinding.Value

namespace LateBinding

/-- Who may call a method. -/
inductive Visibility where
  | pub
  | prot
  | priv
deriving DecidableEq, Inhabited

def Visibility.text : Visibility → String
  | pub => "public"
  | prot => "protected"
  | priv => "private"

/-- Marks of a method. -/
structure MethodFlags where
  /-- The entry is a tombstone. -/
  undefined : Bool := false
  /-- The method can be called, but is not to count as an answer to its name. -/
  unimplemented : Bool := false
  /-- The runtime itself provides the method. -/
  builtin : Bool := false
deriving DecidableEq, Inhabited

/-- An entry of a method table. -/
structure Method (τ : Type) where
  name : Symbol
  owner : ClassId
  visibility : Visibility
  target : Option τ
  flags : MethodFlags
  /-- The number of the change that made the entry. -/
  generation : Nat
deriving DecidableEq

namespace Method

variable {τ σ : Type}

/-- A method that runs a target. Whatever marks are asked for, it is no tombstone. -/
def new (name : Symbol) (owner : ClassId) (visibility : Visibility) (target : τ)
    (flags : MethodFlags) (generation : Nat) : Method τ :=
  { name, owner, visibility, target := some target, flags := { flags with undefined := false },
    generation }

/-- An entry that marks a name as undefined. -/
def tombstone (name : Symbol) (owner : ClassId) (generation : Nat) : Method τ :=
  { name, owner, visibility := .pub, target := none, flags := { undefined := true }, generation }

/-- A copy for a given owner, with another visibility. -/
def withVisibility (m : Method τ) (owner : ClassId) (visibility : Visibility) (generation : Nat) :
    Method τ :=
  { m with owner, visibility, generation }

/-- A copy for a given owner, under another name. -/
def aliased (m : Method τ) (name : Symbol) (owner : ClassId) (generation : Nat) : Method τ :=
  { m with name, owner, generation }

def isUndefined (m : Method τ) : Bool := m.flags.undefined

def isUnimplemented (m : Method τ) : Bool := m.flags.unimplemented

def map (f : τ → σ) (m : Method τ) : Method σ := { m with target := m.target.map f }

/-- The entry as it can be looked at: whether it has a target is left, what the target is is not. -/
def info (m : Method τ) : Method Unit := m.map fun _ => ()

/-- The entry is a tombstone exactly if it has no target. -/
def WellMarked (m : Method τ) : Prop := m.isUndefined = true ↔ m.target = none

theorem wellMarked_new (name : Symbol) (owner : ClassId) (visibility : Visibility) (target : τ)
    (flags : MethodFlags) (generation : Nat) :
    (new name owner visibility target flags generation).WellMarked := by
  simp [WellMarked, new, isUndefined]

theorem wellMarked_tombstone (name : Symbol) (owner : ClassId) (generation : Nat) :
    (tombstone name owner generation : Method τ).WellMarked := by
  simp [WellMarked, tombstone, isUndefined]

theorem WellMarked.withVisibility {m : Method τ} (hm : m.WellMarked) (owner : ClassId)
    (visibility : Visibility) (generation : Nat) :
    (m.withVisibility owner visibility generation).WellMarked := hm

theorem WellMarked.aliased {m : Method τ} (hm : m.WellMarked) (name : Symbol) (owner : ClassId)
    (generation : Nat) : (m.aliased name owner generation).WellMarked := hm

end Method

end LateBinding
