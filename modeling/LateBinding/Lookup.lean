import LateBinding.Hierarchy.Ancestors
import LateBinding.Mode

namespace LateBinding

/-- What a walk along the ancestors of a class, up to the first entry for a name, comes to. -/
inductive Walk (τ : Type) where
  | defined (m : Method τ)
  /-- The first entry is a tombstone. -/
  | undefined
  /-- There is no entry. -/
  | absent
deriving DecidableEq

/-- What a look-up comes to. -/
inductive Lookup (τ : Type) where
  | found (m : Method τ)
  /-- There is a method, but not for this caller. -/
  | hidden (m : Method τ)
  | undefined
  | absent
deriving DecidableEq

variable {τ : Type}

/-- What the first entry along the ancestors says. -/
def Walk.ofFirst : Option (Method τ) → Walk τ
  | some m => if m.isUndefined then .undefined else .defined m
  | none => .absent

def Walk.method? : Walk τ → Option (Method τ)
  | defined m => some m
  | _ => none

def Lookup.method? : Lookup τ → Option (Method τ)
  | found m => some m
  | _ => none

def Walk.map {σ : Type} (f : τ → σ) : Walk τ → Walk σ
  | defined m => .defined (m.map f)
  | undefined => .undefined
  | absent => .absent

def Lookup.map {σ : Type} (f : τ → σ) : Lookup τ → Lookup σ
  | found m => .found (m.map f)
  | hidden m => .hidden (m.map f)
  | undefined => .undefined
  | absent => .absent

/-- What remains of a walk if only methods of some visibilities may be found. -/
def Walk.filter (visible : Visibility → Bool) : Walk τ → Lookup τ
  | defined m => if visible m.visibility then .found m else .hidden m
  | undefined => .undefined
  | absent => .absent

/-- The look-up of a caller with a given mode. -/
def Walk.lookup (mode : Mode) (w : Walk τ) : Lookup τ := w.filter mode.allows

/-- The look-up that may find every method. -/
def Walk.lookupAny (w : Walk τ) : Lookup τ := w.filter fun _ => true

def Hierarchy.walk (h : Hierarchy τ) (id : ClassId) (name : Symbol) : Walk τ × Hierarchy τ :=
  let (entry, h) := h.resolve? id name
  (.ofFirst entry, h)

theorem Walk.ofFirst_eq_defined_iff {entry : Option (Method τ)} {m : Method τ} :
    Walk.ofFirst entry = .defined m ↔ entry = some m ∧ m.isUndefined = false := by
  cases entry with
  | none => simp [ofFirst]
  | some e =>
    simp only [ofFirst, Option.some.injEq]
    split <;> rename_i he
    · simp only [reduceCtorEq, false_iff, not_and]
      rintro rfl
      simp [he]
    · simp only [Walk.defined.injEq]
      constructor
      · rintro rfl
        exact ⟨rfl, by simpa using he⟩
      · exact fun h => h.1

theorem Walk.lookup_eq_found_iff {w : Walk τ} {mode : Mode} {m : Method τ} :
    w.lookup mode = .found m ↔ w = .defined m ∧ mode.allows m.visibility = true := by
  cases w with
  | defined e =>
    simp only [lookup, filter, Walk.defined.injEq]
    split <;> rename_i he
    · simp only [Lookup.found.injEq]
      exact ⟨fun h => ⟨h, h ▸ he⟩, fun h => h.1⟩
    · simp only [reduceCtorEq, false_iff, not_and]
      rintro rfl
      exact he
  | undefined => simp [lookup, filter]
  | absent => simp [lookup, filter]

end LateBinding
