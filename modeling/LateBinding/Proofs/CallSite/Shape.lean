import LateBinding.Proofs.CallSite
import LateBinding.Proofs.CallSite.BoundedList

namespace LateBinding

variable {τ : Type}

/-- A look-up in a given mode can come to the target, and a call site of this mode keeps it. -/
def Remembered.Admissible (mode : Mode) : Remembered τ → Prop
  | method m => m.isUndefined = false ∧ mode.allows m.visibility = true
  | notFound => mode.isRespondTo = true

/-- The kind of a state by the length of its chain, if it has not seen too many. -/
def SiteState.Kind.ofSize : Nat → Kind
  | 0 => empty
  | 1 => monomorphic
  | _ => polymorphic

theorem SiteState.kind_ofChain (chain : List (SiteEntry τ)) :
    (ofChain chain).kind = .ofSize chain.length := by
  match chain with
  | [] => rfl
  | [_] => rfl
  | _ :: _ :: _ => rfl

theorem SiteState.isMegamorphic_iff {s : SiteState τ} : s.isMegamorphic = true ↔ s = megamorphic := by
  cases s <;> simp [isMegamorphic]

namespace CallSite

/-- The entries of the chain whose class has the stamp that it had when they were made. -/
def freshEntries (s : CallSite τ) (current : ClassId → Option Nat) : List (SiteEntry τ) :=
  s.state.entries.filter fun e => (current e.guard.cls).any e.isFresh

/-- The memory is in order. -/
structure WellFormed (s : CallSite τ) : Prop where
  guards_nodup : (s.state.entries.map SiteEntry.guard).Nodup
  kind_eq : s.state.isMegamorphic = false → s.state.kind = .ofSize s.state.size
  flag_eq : s.isMegamorphic = s.state.isMegamorphic
  admissible : ∀ e ∈ s.state.entries, e.target.Admissible s.mode

variable {s s' : CallSite τ} {current : ClassId → Option Nat} {e entry : SiteEntry τ}

theorem mem_freshEntries :
    e ∈ s.freshEntries current ↔
      e ∈ s.state.entries ∧ current e.guard.cls = some e.generation := by
  rw [freshEntries, List.mem_filter]
  cases current e.guard.cls with
  | none => simp
  | some g =>
    simp only [Option.any_some, SiteEntry.isFresh, beq_iff_eq, Option.some.injEq]
    exact and_congr_right fun _ => eq_comm

theorem wellFormed_new (id : Nat) (mode : Mode) (limit : Nat) :
    (new id mode limit : CallSite τ).WellFormed where
  guards_nodup := List.nodup_nil
  kind_eq _ := rfl
  flag_eq := rfl
  admissible e he := by cases he

/-- Counting does not touch the memory. -/
theorem WellFormed.of_state_eq (hs : s.WellFormed) (hstate : s'.state = s.state)
    (hflag : s'.isMegamorphic = s.isMegamorphic) (hmode : s'.mode = s.mode) : s'.WellFormed := by
  refine ⟨?_, ?_, ?_, ?_⟩
  · rw [hstate]
    exact hs.guards_nodup
  · rw [hstate]
    exact hs.kind_eq
  · rw [hflag, hstate]
    exact hs.flag_eq
  · rw [hstate, hmode]
    exact hs.admissible

theorem WellFormed.entries_eq_nil (hs : s.WellFormed) (hmega : s.isMegamorphic = true) :
    s.state.entries = [] := by
  rw [hs.flag_eq, SiteState.isMegamorphic_iff] at hmega
  rw [hmega]
  rfl

/-- Where no guard occurs twice, an entry is what is found for its guard. -/
theorem WellFormed.find?_eq_some_iff (hs : s.WellFormed) {g : Guard} :
    s.state.find? g = some e ↔ e ∈ s.state.entries ∧ e.guard = g :=
  SiteState.find?_eq_some_iff hs.guards_nodup

/-- The memory answers exactly by its fresh entries. -/
theorem WellFormed.answerFor?_eq_some_iff (hs : s.WellFormed) {g : Guard} {generation : Nat}
    (hg : current g.cls = some generation) {remembered : Remembered τ} :
    s.answerFor? g generation = some remembered ↔
      ∃ e ∈ s.freshEntries current, e.guard = g ∧ e.target = remembered := by
  simp only [answerFor?, Option.map_eq_some_iff, Option.filter_eq_some_iff, hs.find?_eq_some_iff,
    SiteEntry.isFresh, beq_iff_eq, mem_freshEntries]
  constructor
  · rintro ⟨e, ⟨⟨he, rfl⟩, rfl⟩, htarget⟩
    exact ⟨e, ⟨he, hg⟩, rfl, htarget⟩
  · rintro ⟨e, ⟨he, hfresh⟩, rfl, htarget⟩
    rw [hg, Option.some.injEq] at hfresh
    exact ⟨e, ⟨⟨he, rfl⟩, hfresh.symm⟩, htarget⟩

theorem WellFormed.answerFor?_eq_none_iff (hs : s.WellFormed) {g : Guard} {generation : Nat}
    (hg : current g.cls = some generation) :
    s.answerFor? g generation = none ↔ ∀ e ∈ s.freshEntries current, e.guard ≠ g := by
  rw [Option.eq_none_iff_forall_ne_some]
  constructor
  · intro hnone e he hguard
    exact hnone e.target ((hs.answerFor?_eq_some_iff hg).mpr ⟨e, he, hguard, rfl⟩)
  · intro hnot remembered hanswer
    obtain ⟨e, he, hguard, -⟩ := (hs.answerFor?_eq_some_iff hg).mp hanswer
    exact hnot e he hguard

/-- An entry for a guard that no fresh entry has joins the fresh ones if there is room. Otherwise the
site has seen too many. -/
theorem WellFormed.install_eq (hs : s.WellFormed) (hmega : s.isMegamorphic = false)
    (hsize : s.state.size ≤ s.limit) (hnew : ∀ e ∈ s.freshEntries current, e.guard ≠ entry.guard) :
    (s.install current entry).2 =
      if s.limit ≤ (s.freshEntries current).length then
        { s with state := .megamorphic, isMegamorphic := true }
      else { s with state := .ofChain (s.freshEntries current ++ [entry]) } := by
  have hstate : s.state.isMegamorphic = false := hs.flag_eq ▸ hmega
  have hretain : s.state.retainFresh current = .ofChain (s.freshEntries current) := by
    rw [SiteState.retainFresh, hstate]
    rfl
  have hfind : (SiteState.ofChain (s.freshEntries current)).find? entry.guard = none := by
    rw [SiteState.find?, SiteState.entries_ofChain, List.find?_eq_none]
    simpa using hnew
  have hwith : (s.state.retainFresh current).withEntry entry s.limit =
      if s.limit ≤ (s.freshEntries current).length then .megamorphic
      else .ofChain (s.freshEntries current ++ [entry]) := by
    rw [hretain, SiteState.withEntry, SiteState.isMegamorphic_ofChain, hfind, SiteState.size,
      SiteState.entries_ofChain]
    rfl
  have hok : ¬ s.limit < ((s.state.retainFresh current).withEntry entry s.limit).size := by
    have hretained : (s.state.retainFresh current).size ≤ s.limit := by
      simp only [SiteState.size, SiteState.entries_retainFresh]
      exact Nat.le_trans (List.length_filter_le _ _) hsize
    exact Nat.not_lt.mpr (SiteState.size_withEntry_le hretained)
  simp only [install, hstate, Bool.false_eq_true, if_false, if_neg hok, hmega, Bool.false_or]
  rw [hwith]
  split
  · rfl
  · rw [SiteState.isMegamorphic_ofChain]

theorem length_freshEntries_le (s : CallSite τ) (current : ClassId → Option Nat) :
    (s.freshEntries current).length ≤ s.state.size :=
  List.length_filter_le _ _

/-- The site has seen too many exactly if there is no room among the entries that are fresh. -/
theorem WellFormed.isMegamorphic_install_iff (hs : s.WellFormed) (hmega : s.isMegamorphic = false)
    (hsize : s.state.size ≤ s.limit) (hnew : ∀ e ∈ s.freshEntries current, e.guard ≠ entry.guard) :
    (s.install current entry).2.isMegamorphic = true ↔
      (s.freshEntries current).length = s.limit := by
  have hle := (s.length_freshEntries_le current).trans hsize
  rw [hs.install_eq hmega hsize hnew]
  split
  · exact iff_of_true rfl (by omega)
  · exact iff_of_false (by simp [hmega]) (by omega)

/-- Behind an installation that finds room, the fresh entries are those from before and the new one. -/
theorem WellFormed.mem_freshEntries_install (hs : s.WellFormed) (hmega : s.isMegamorphic = false)
    (hsize : s.state.size ≤ s.limit) (hnew : ∀ e ∈ s.freshEntries current, e.guard ≠ entry.guard)
    (hentry : current entry.guard.cls = some entry.generation)
    (hroom : (s.install current entry).2.isMegamorphic = false) :
    e ∈ (s.install current entry).2.freshEntries current ↔
      e ∈ s.freshEntries current ∨ e = entry := by
  rw [hs.install_eq hmega hsize hnew] at hroom ⊢
  split at hroom
  · cases hroom
  · rename_i hfits
    rw [if_neg hfits, mem_freshEntries]
    simp only [SiteState.entries_ofChain, List.mem_append, List.mem_singleton]
    constructor
    · exact fun h => h.1
    · rintro (hold | rfl)
      · exact ⟨.inl hold, (mem_freshEntries.mp hold).2⟩
      · exact ⟨.inr rfl, hentry⟩

/-- Installing an entry that the site does not know keeps its memory in order. -/
theorem WellFormed.install (hs : s.WellFormed) (hmega : s.isMegamorphic = false)
    (hsize : s.state.size ≤ s.limit) (hnew : ∀ e ∈ s.freshEntries current, e.guard ≠ entry.guard)
    (hentry : entry.target.Admissible s.mode) : (s.install current entry).2.WellFormed := by
  rw [hs.install_eq hmega hsize hnew]
  split
  · exact ⟨List.nodup_nil, nofun, rfl, nofun⟩
  · refine ⟨?_, fun _ => ?_, ?_, fun e he => ?_⟩
    · have hfresh : ((s.freshEntries current).map SiteEntry.guard).Nodup :=
        hs.guards_nodup.sublist (List.filter_sublist.map _)
      simp only [SiteState.entries_ofChain, List.map_append, List.map_cons, List.map_nil]
      refine hfresh.append (List.nodup_singleton _) ?_
      rw [List.disjoint_singleton]
      simpa using hnew
    · simp only [SiteState.kind_ofChain, SiteState.size, SiteState.entries_ofChain]
    · simp only [hmega, SiteState.isMegamorphic_ofChain]
    · simp only [SiteState.entries_ofChain, List.mem_append, List.mem_singleton] at he
      rcases he with hold | rfl
      · exact hs.admissible e (mem_freshEntries.mp hold).1
      · exact hentry

end CallSite

end LateBinding
