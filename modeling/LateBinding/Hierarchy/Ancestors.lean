import LateBinding.Hierarchy.Basic

namespace LateBinding

namespace Hierarchy

variable {τ : Type}

/-- A list continued by those ancestors of a module that are neither in it nor inherited. -/
def mixIn (inherited listed ancestors : List ClassId) : List ClassId :=
  ancestors.foldl
    (fun listed a => if a ∈ listed ∨ a ∈ inherited then listed else listed ++ [a]) listed

/-- A list continued by the ancestors of several modules, one after the other. -/
def mixInAll (ancestorsOf : ClassId → Option (List ClassId)) (inherited : List ClassId) :
    List ClassId → List ClassId → Option (List ClassId)
  | [], listed => some listed
  | m :: ms, listed => do
    let ancestors ← ancestorsOf m
    mixInAll ancestorsOf inherited ms (mixIn inherited listed ancestors)

/-- The ancestors of a record by the superclasses and includes of the records, as far as the graph
is no deeper than a bound: the record itself, the ancestors of its included modules, the last included
first, and those of its superclass. A number not in use has no ancestors. -/
def linearizeWithin (h : Hierarchy τ) : Nat → ClassId → Option (List ClassId)
  | 0, _ => none
  | depth + 1, id =>
    match h.get? id with
    | none => some []
    | some r => do
      let inherited ← match r.superclass with
        | some parent => h.linearizeWithin depth parent
        | none => some []
      let own ← mixInAll (h.linearizeWithin depth) inherited r.includes.reverse [id]
      return own ++ inherited

/-- The ancestors of a record by the superclasses and includes of the records. -/
def linearize (h : Hierarchy τ) (id : ClassId) : List ClassId :=
  (h.linearizeWithin (h.size + 1) id).getD []

/-- A list of ancestors kept in the record it belongs to. -/
def remember (h : Hierarchy τ) (id : ClassId) (list : List ClassId) : Hierarchy τ :=
  h.modify id fun r => { r with memo := some ⟨h.epoch, list⟩ }

/-- A list continued by the ancestors of several modules, each request passing on its hierarchy. -/
def mixInAllKept
    (ancestorsOf : Hierarchy τ → ClassId → Option (List ClassId × Hierarchy τ))
    (inherited : List ClassId) :
    List ClassId → List ClassId → Hierarchy τ → Option (List ClassId × Hierarchy τ)
  | [], listed, h => some (listed, h)
  | m :: ms, listed, h => do
    let (ancestors, h) ← ancestorsOf h m
    mixInAllKept ancestorsOf inherited ms (mixIn inherited listed ancestors) h

/-- The same list, except that a list which a record remembers from this epoch is not computed again, and the
hierarchy with the lists that were computed on the way. -/
def ancestorsWithin : Nat → Hierarchy τ → ClassId → Option (List ClassId × Hierarchy τ)
  | 0, _, _ => none
  | depth + 1, h, id =>
    match h.get? id with
    | none => some ([], h)
    | some r =>
      match r.remembered? h.epoch with
      | some list => some (list, h)
      | none => do
        let (inherited, h) ← match r.superclass with
          | some parent => ancestorsWithin depth h parent
          | none => some ([], h)
        let (own, h) ← mixInAllKept (ancestorsWithin depth) inherited r.includes.reverse [id] h
        let list := own ++ inherited
        return (list, h.remember id list)

/-- The ancestors of a record, and the hierarchy that remembers them. -/
def ancestors (h : Hierarchy τ) (id : ClassId) : List ClassId × Hierarchy τ :=
  (ancestorsWithin (h.size + 1) h id).getD ([], h)

/-- A record has another one among its ancestors. -/
def isAncestor (h : Hierarchy τ) (descendant ancestor : ClassId) : Bool × Hierarchy τ :=
  let (list, h) := h.ancestors descendant
  (decide (ancestor ∈ list), h)

/-- An edge from one record up to another would close a cycle. -/
def wouldCycle (h : Hierarchy τ) (descendant ancestor : ClassId) : Bool × Hierarchy τ :=
  if descendant = ancestor then (true, h) else h.isAncestor ancestor descendant

/-- The first own entry for a name along a list of records. -/
def firstOwn? (h : Hierarchy τ) (name : Symbol) (list : List ClassId) : Option (Method τ) :=
  list.findSome? fun id => (h.get? id).bind fun r => r.own? name

/-- The first own entry for a name among the ancestors of a record. -/
def resolve? (h : Hierarchy τ) (id : ClassId) (name : Symbol) :
    Option (Method τ) × Hierarchy τ :=
  let (list, h) := h.ancestors id
  (h.firstOwn? name list, h)

/-- The entry that a record has for a name, unless it is a tombstone. -/
def resolveDefined? (h : Hierarchy τ) (id : ClassId) (name : Symbol) :
    Option (Method τ) × Hierarchy τ :=
  let (found, h) := h.resolve? id name
  (found.filter fun m => !m.isUndefined, h)

theorem ancestorsWithin_unknown {h : Hierarchy τ} {id : ClassId} (hid : h.get? id = none)
    (depth : Nat) : ancestorsWithin (depth + 1) h id = some ([], h) := by
  simp [ancestorsWithin, hid]

/-- A number not in use has no ancestors, and asking for them changes nothing. -/
theorem ancestors_unknown {h : Hierarchy τ} {id : ClassId} (hid : h.get? id = none) :
    h.ancestors id = ([], h) := by
  simp [ancestors, ancestorsWithin_unknown hid]

end Hierarchy

end LateBinding
