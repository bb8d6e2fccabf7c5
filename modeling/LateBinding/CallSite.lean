import LateBinding.Binary64
import LateBinding.CallSite.State
import LateBinding.Fault
import LateBinding.Mode

namespace LateBinding

/-- A place in a program from which methods are called in one mode, and which remembers where they led. Its
number stands for one of 32 bits and its counts for numbers of 64 bits, so that the results are about fewer
than `2 ^ 32` sites and `2 ^ 64` calls. -/
structure CallSite (τ : Type) where
  id : Nat
  mode : Mode
  /-- The greatest length of a chain. -/
  limit : Nat
  state : SiteState τ
  /-- The site no longer looks at its state. -/
  isMegamorphic : Bool
  /-- Calls that got past the safepoint. -/
  accesses : Nat
  /-- Calls that the memory answered. -/
  hits : Nat
  /-- Calls that the memory was asked about in vain. -/
  misses : Nat
  /-- Calls that went past the memory because the site had seen too many. -/
  bypasses : Nat

namespace CallSite

variable {τ : Type}

def new (id : Nat) (mode : Mode) (limit : Nat) : CallSite τ :=
  { id, mode, limit, state := .empty, isMegamorphic := false, accesses := 0, hits := 0, misses := 0,
    bypasses := 0 }

/-- The classes of the chain, oldest entry first. -/
def classes (s : CallSite τ) : List ClassId := s.state.entries.map fun e => e.guard.cls

def hitRate (s : CallSite τ) : Binary64 := .percentage s.hits s.accesses

def countAccess (s : CallSite τ) : CallSite τ := { s with accesses := s.accesses + 1 }

def countHit (s : CallSite τ) : CallSite τ := { s with hits := s.hits + 1 }

def countMiss (s : CallSite τ) : CallSite τ := { s with misses := s.misses + 1 }

def countBypass (s : CallSite τ) : CallSite τ := { s with bypasses := s.bypasses + 1 }

/-- What the memory says about a guard whose class has a given stamp. -/
def answerFor? (s : CallSite τ) (g : Guard) (generation : Nat) : Option (Remembered τ) :=
  ((s.state.find? g).filter fun e => e.isFresh generation).map SiteEntry.target

/-- The site with one more entry in its chain, which loses what is no longer fresh. The last test
never fails: a chain that would outgrow the limit has given way to the final state. -/
def install (s : CallSite τ) (current : ClassId → Option Nat) (entry : SiteEntry τ) :
    Except Fault Unit × CallSite τ :=
  if s.state.isMegamorphic then (.ok (), s)
  else
    let next := (s.state.retainFresh current).withEntry entry s.limit
    if s.limit < next.size then (.error (.chainOverLimit s.id next.size s.limit), s)
    else (.ok (), { s with state := next, isMegamorphic := s.isMegamorphic || next.isMegamorphic })

/-- A chain within its limit always has room, or gives way. -/
theorem install_eq_ok {s : CallSite τ} {current : ClassId → Option Nat} {entry : SiteEntry τ}
    (hsize : s.state.size ≤ s.limit) : (s.install current entry).1 = .ok () := by
  have hretained : (s.state.retainFresh current).size ≤ s.limit := by
    simp only [SiteState.size, SiteState.entries_retainFresh]
    exact Nat.le_trans (List.length_filter_le _ _) hsize
  have hnext := @SiteState.size_withEntry_le τ _ entry _ hretained
  simp only [install]
  split
  · rfl
  · rw [if_neg (by omega)]

end CallSite

/-- The word for a kind of state. -/
def SiteState.Kind.text : SiteState.Kind → String
  | empty => "empty"
  | monomorphic => "monomorphic"
  | polymorphic => "polymorphic"
  | megamorphic => "megamorphic"

/-- The name of a kind of state, as it is shown to a programmer. -/
def SiteState.Kind.name : SiteState.Kind → String
  | empty => "Empty"
  | monomorphic => "Monomorphic"
  | polymorphic => "Polymorphic"
  | megamorphic => "Megamorphic"

def CallSite.inspect {τ : Type} (s : CallSite τ) : String :=
  s!"DispatchCache \x7b id: {s.id}, state: {s.state.kind.name}, entries: {s.state.size}, " ++
    s!"limit: {s.limit} \x7d"

end LateBinding
