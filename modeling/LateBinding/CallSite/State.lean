import LateBinding.Method

namespace LateBinding

/-- The class and the name for which an entry answers. -/
structure Guard where
  cls : ClassId
  name : Symbol
deriving DecidableEq

/-- What a look-up came to. -/
inductive Remembered (τ : Type) where
  | method (m : Method τ)
  | notFound
deriving DecidableEq

def Remembered.method? {τ : Type} : Remembered τ → Option (Method τ)
  | method m => some m
  | notFound => none

structure SiteEntry (τ : Type) where
  guard : Guard
  target : Remembered τ
  /-- The stamp of the class when the entry was made. -/
  generation : Nat
deriving DecidableEq

/-- The entry was made when its class had a given stamp. -/
def SiteEntry.isFresh {τ : Type} (e : SiteEntry τ) (current : Nat) : Bool :=
  e.generation == current

/-- What a call site remembers: nothing, one entry, a chain of several, or that it has seen too many. It stays
with the last. -/
inductive SiteState (τ : Type) where
  | empty
  | monomorphic (entry : SiteEntry τ)
  | polymorphic (chain : List (SiteEntry τ))
  | megamorphic
deriving DecidableEq

inductive SiteState.Kind where
  | empty
  | monomorphic
  | polymorphic
  | megamorphic
deriving DecidableEq

namespace SiteState

variable {τ : Type}

instance : Inhabited (SiteState τ) := ⟨empty⟩

def kind : SiteState τ → Kind
  | empty => .empty
  | monomorphic _ => .monomorphic
  | polymorphic _ => .polymorphic
  | megamorphic => .megamorphic

/-- The chain of a state, oldest entry first. -/
def entries : SiteState τ → List (SiteEntry τ)
  | empty | megamorphic => []
  | monomorphic entry => [entry]
  | polymorphic chain => chain

def size (s : SiteState τ) : Nat := s.entries.length

def isEmpty (s : SiteState τ) : Bool := s.entries.isEmpty

/-- The site has seen too many. -/
def isMegamorphic : SiteState τ → Bool
  | megamorphic => true
  | _ => false

def find? (s : SiteState τ) (g : Guard) : Option (SiteEntry τ) :=
  s.entries.find? fun e => e.guard = g

/-- The state that fits a chain by its length. -/
def ofChain : List (SiteEntry τ) → SiteState τ
  | [] => empty
  | [entry] => monomorphic entry
  | entry :: next :: rest => polymorphic (entry :: next :: rest)

/-- The state without the entries whose class has another stamp now, or none at all. -/
def retainFresh (s : SiteState τ) (current : ClassId → Option Nat) : SiteState τ :=
  if s.isMegamorphic then megamorphic
  else ofChain (s.entries.filter fun e => (current e.guard.cls).any e.isFresh)

/-- The state with one more entry. A guard that is in the chain keeps its entry, and a chain that
has reached the limit gives way to the final state. -/
def withEntry (s : SiteState τ) (entry : SiteEntry τ) (limit : Nat) : SiteState τ :=
  if s.isMegamorphic then megamorphic
  else if (s.find? entry.guard).isSome then s
  else if limit ≤ s.size then megamorphic
  else ofChain (s.entries ++ [entry])

@[simp] theorem entries_ofChain (chain : List (SiteEntry τ)) : (ofChain chain).entries = chain := by
  match chain with
  | [] => rfl
  | [_] => rfl
  | _ :: _ :: _ => rfl

@[simp] theorem isMegamorphic_ofChain (chain : List (SiteEntry τ)) :
    (ofChain chain).isMegamorphic = false := by
  match chain with
  | [] => rfl
  | [_] => rfl
  | _ :: _ :: _ => rfl

@[simp] theorem withEntry_megamorphic (entry : SiteEntry τ) (limit : Nat) :
    (megamorphic : SiteState τ).withEntry entry limit = megamorphic := rfl

@[simp] theorem retainFresh_megamorphic (current : ClassId → Option Nat) :
    (megamorphic : SiteState τ).retainFresh current = megamorphic := rfl

/-- Only fresh entries stay, and they stay in their order. -/
theorem entries_retainFresh {s : SiteState τ} (current : ClassId → Option Nat) :
    (s.retainFresh current).entries =
      s.entries.filter fun e => (current e.guard.cls).any e.isFresh := by
  unfold retainFresh
  split
  · cases s <;> simp_all [isMegamorphic, entries]
  · exact entries_ofChain _

/-- No state outgrows the limit under which an entry is added. -/
theorem size_withEntry_le {s : SiteState τ} {entry : SiteEntry τ} {limit : Nat}
    (hsize : s.size ≤ limit) : (s.withEntry entry limit).size ≤ limit := by
  simp only [withEntry]
  split
  · simp [size, entries]
  · split
    · exact hsize
    · split
      · simp [size, entries]
      · rename_i hroom
        simp only [size, entries_ofChain, List.length_append, List.length_singleton] at hroom ⊢
        omega

end SiteState

end LateBinding
