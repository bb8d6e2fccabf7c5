import LateBinding.Binary64
import LateBinding.Lookup

namespace LateBinding

/-- A walk and the stamp of the class from which it began. -/
structure CachedWalk (τ : Type) where
  generation : Nat
  walk : Walk τ
deriving DecidableEq

/-- The newest walks for classes and names, and how the questions for them went. The counts stand for numbers
of 64 bits, so that the results are about fewer than `2 ^ 64` questions. -/
structure LookupCache (τ : Type) where
  walks : Table (ClassId × Symbol) (CachedWalk τ)
  /-- Questions that were answered. -/
  hits : Nat
  /-- Questions that were not. -/
  misses : Nat
  /-- Among the misses, those for a stamp other than that of the walk at hand. -/
  invalidations : Nat

namespace LookupCache

variable {τ : Type}

/-- A cache that was never asked and keeps nothing. -/
def empty : LookupCache τ := ⟨.empty, 0, 0, 0⟩

instance : Inhabited (LookupCache τ) := ⟨empty⟩

def size (c : LookupCache τ) : Nat := c.walks.size

def isEmpty (c : LookupCache τ) : Bool := c.size == 0

def hitRate (c : LookupCache τ) : Binary64 := .percentage c.hits (c.hits + c.misses)

/-- Asks for the walk from a class with a given stamp. -/
def get (c : LookupCache τ) (id : ClassId) (name : Symbol) (generation : Nat) :
    Option (Walk τ) × LookupCache τ :=
  match c.walks.get? (id, name) with
  | some kept =>
    if kept.generation = generation then (some kept.walk, { c with hits := c.hits + 1 })
    else (none, { c with misses := c.misses + 1, invalidations := c.invalidations + 1 })
  | none => (none, { c with misses := c.misses + 1 })

/-- Keeps a walk, unless a newer one is at hand. -/
def insert (c : LookupCache τ) (id : ClassId) (name : Symbol) (generation : Nat) (walk : Walk τ) :
    LookupCache τ :=
  match c.walks.get? (id, name) with
  | some kept =>
    if generation < kept.generation then c
    else { c with walks := c.walks.insert (id, name) ⟨generation, walk⟩ }
  | none => { c with walks := c.walks.insert (id, name) ⟨generation, walk⟩ }

/-- Forgets all walks, but not the counters. -/
def clear (c : LookupCache τ) : LookupCache τ := { c with walks := .empty }

/-- Asking changes nothing but the counters. -/
theorem walks_get (c : LookupCache τ) (id : ClassId) (name : Symbol) (generation : Nat) :
    (c.get id name generation).2.walks = c.walks := by
  simp only [get]
  split
  · split <;> rfl
  · rfl

/-- Every question is counted once. -/
theorem hits_add_misses_get (c : LookupCache τ) (id : ClassId) (name : Symbol)
    (generation : Nat) :
    (c.get id name generation).2.hits + (c.get id name generation).2.misses =
      c.hits + c.misses + 1 := by
  simp only [get]
  split
  · split <;> simp only <;> omega
  · simp only; omega

end LookupCache

/-- Walks along the ancestors of a class, asking a cache first. An unknown class has no stamp, so
the cache is not asked about it. -/
def Hierarchy.walkCached {τ : Type} (h : Hierarchy τ) (cache : LookupCache τ) (id : ClassId)
    (name : Symbol) : Walk τ × LookupCache τ × Hierarchy τ :=
  match h.get? id with
  | none => (.absent, cache, h)
  | some r =>
    match cache.get id name r.stamp with
    | (some walk, cache) => (walk, cache, h)
    | (none, cache) =>
      let (walk, h) := h.walk id name
      (walk, cache.insert id name r.stamp walk, h)

end LateBinding
