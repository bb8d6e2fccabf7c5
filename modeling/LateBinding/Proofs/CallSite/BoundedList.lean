import Mathlib.Data.Finset.Card
import Mathlib.Data.List.Induction
import LateBinding.CallSite.State

namespace LateBinding

variable {τ : Type}

/-- The first entry for each guard, in the order of a list. -/
def SiteEntry.firsts : List (SiteEntry τ) → List (SiteEntry τ)
  | [] => []
  | e :: es => e :: (firsts es).filter fun e' => e'.guard ≠ e.guard

namespace SiteState

/-- What can be done to a state. -/
inductive Change (τ : Type) where
  | install (entry : SiteEntry τ) (limit : Nat)
  /-- Drops the entries whose class does not have their stamp. -/
  | purge (current : ClassId → Option Nat)

def change (s : SiteState τ) : Change τ → SiteState τ
  | .install entry limit => s.withEntry entry limit
  | .purge current => s.retainFresh current

/-- The state behind some changes. -/
def after (s : SiteState τ) (cs : List (Change τ)) : SiteState τ := cs.foldl change s

/-- What a change does to a list of entries; nothing results if the list would outgrow the limit. -/
def Change.onList : Change τ → List (SiteEntry τ) → Option (List (SiteEntry τ))
  | .install entry limit, es =>
    if entry.guard ∈ es.map SiteEntry.guard then some es
    else if es.length < limit then some (es ++ [entry])
    else none
  | .purge current, es => some (es.filter fun e => current e.guard.cls = some e.generation)

/-- What some changes do to a list of entries, one after the other. -/
def Change.allOnList (l : Option (List (SiteEntry τ))) (cs : List (Change τ)) :
    Option (List (SiteEntry τ)) :=
  cs.foldl (fun l c => l.bind c.onList) l

/-- The state is the one for a list of entries, whose length tells the kind, or has seen too many. -/
inductive StandsFor : SiteState τ → Option (List (SiteEntry τ)) → Prop where
  | empty : StandsFor .empty (some [])
  | monomorphic (e : SiteEntry τ) : StandsFor (.monomorphic e) (some [e])
  | polymorphic (first second : SiteEntry τ) (rest : List (SiteEntry τ)) :
    StandsFor (.polymorphic (first :: second :: rest)) (some (first :: second :: rest))
  | megamorphic : StandsFor .megamorphic none

variable {s : SiteState τ} {l : Option (List (SiteEntry τ))} {es : List (SiteEntry τ)}
  {e entry : SiteEntry τ}

theorem standsFor_ofChain (es : List (SiteEntry τ)) : (ofChain es).StandsFor (some es) := by
  match es with
  | [] => exact .empty
  | [e] => exact .monomorphic e
  | first :: second :: rest => exact .polymorphic first second rest

theorem StandsFor.entries_eq (hs : s.StandsFor (some es)) : s.entries = es := by
  cases hs <;> rfl

theorem StandsFor.isMegamorphic_eq (hs : s.StandsFor l) : s.isMegamorphic = l.isNone := by
  cases hs <;> rfl

theorem StandsFor.eq_megamorphic_iff (hs : s.StandsFor l) : s = .megamorphic ↔ l = none := by
  cases hs <;> simp

/-- Where no guard occurs twice, an entry is what is found for its guard. -/
theorem find?_eq_some_iff (hguards : (s.entries.map SiteEntry.guard).Nodup) {g : Guard} :
    s.find? g = some e ↔ e ∈ s.entries ∧ e.guard = g := by
  constructor
  · intro hfind
    exact ⟨List.mem_of_find?_eq_some hfind, by simpa using List.find?_some hfind⟩
  · rintro ⟨he, rfl⟩
    obtain ⟨e', he'⟩ : ∃ e', s.find? e.guard = some e' := by
      rw [← Option.isSome_iff_exists, find?, List.find?_isSome]
      exact ⟨e, he, by simp⟩
    have hmem := List.mem_of_find?_eq_some he'
    have hguard : e'.guard = e.guard := by simpa using List.find?_some he'
    rw [he', List.inj_on_of_nodup_map hguards hmem he hguard]

theorem isSome_find?_iff {g : Guard} :
    (s.find? g).isSome = true ↔ g ∈ s.entries.map SiteEntry.guard := by
  simp [find?, List.find?_isSome]

/-- Every change of a state is a change of the list for which it stands. -/
theorem StandsFor.change (hs : s.StandsFor l) (c : Change τ) :
    (s.change c).StandsFor (l.bind c.onList) := by
  have hmega := hs.isMegamorphic_eq
  cases l with
  | none =>
    obtain rfl := hs.eq_megamorphic_iff.mpr rfl
    cases c <;> exact .megamorphic
  | some es =>
    have hentries := hs.entries_eq
    simp only [Option.isNone_some] at hmega
    cases c with
    | install entry limit =>
      simp only [SiteState.change, withEntry, hmega, Bool.false_eq_true, if_false, isSome_find?_iff,
        size, hentries, Option.bind_some, Change.onList]
      by_cases hknown : entry.guard ∈ es.map SiteEntry.guard
      · rwa [if_pos hknown, if_pos hknown]
      · rw [if_neg hknown, if_neg hknown]
        by_cases hroom : es.length < limit
        · rw [if_neg (by omega), if_pos hroom]
          exact standsFor_ofChain _
        · rw [if_pos (by omega), if_neg hroom]
          exact .megamorphic
    | purge current =>
      have hfresh (e : SiteEntry τ) :
          (current e.guard.cls).any e.isFresh = decide (current e.guard.cls = some e.generation) := by
        cases current e.guard.cls <;> simp [SiteEntry.isFresh, Bool.beq_eq_decide_eq, eq_comm]
      simp only [SiteState.change, retainFresh, hmega, Bool.false_eq_true, if_false, hentries, hfresh,
        Option.bind_some, Change.onList]
      exact standsFor_ofChain _

/-- No change brings a guard into a list that is there already. -/
theorem Change.nodup_onList {c : Change τ} {es' : List (SiteEntry τ)}
    (hes : (es.map SiteEntry.guard).Nodup) (hc : c.onList es = some es') :
    (es'.map SiteEntry.guard).Nodup := by
  cases c with
  | install entry limit =>
    simp only [onList] at hc
    split at hc
    · rwa [← Option.some.inj hc]
    · rename_i hnew
      split at hc
      · rw [← Option.some.inj hc, List.map_append]
        refine hes.append (List.nodup_singleton _) ?_
        simpa using hnew
      · cases hc
  | purge current =>
    rw [← Option.some.inj hc]
    exact hes.sublist (List.filter_sublist.map _)

theorem StandsFor.after (hs : s.StandsFor l) (cs : List (Change τ)) :
    (s.after cs).StandsFor (Change.allOnList l cs) := by
  induction cs generalizing s l with
  | nil => exact hs
  | cons c cs ih => exact ih (hs.change c)

theorem Change.nodup_allOnList {cs : List (Change τ)} (hl : ∀ es ∈ l, (es.map SiteEntry.guard).Nodup) :
    ∀ es ∈ allOnList l cs, (es.map SiteEntry.guard).Nodup := by
  induction cs generalizing l with
  | nil => exact hl
  | cons c cs ih =>
    refine ih fun es' hes' => ?_
    obtain ⟨es, hes, hc⟩ := Option.bind_eq_some_iff.mp hes'
    exact nodup_onList (hl es hes) hc

theorem after_megamorphic (cs : List (Change τ)) : (megamorphic : SiteState τ).after cs = .megamorphic := by
  induction cs with
  | nil => rfl
  | cons c cs ih => cases c <;> exact ih

end SiteState

namespace SiteEntry

variable {es : List (SiteEntry τ)} {e : SiteEntry τ}

theorem mem_guards_firsts (es : List (SiteEntry τ)) (g : Guard) :
    g ∈ (firsts es).map guard ↔ g ∈ es.map guard := by
  induction es with
  | nil => rfl
  | cons e es ih =>
    by_cases hg : g = e.guard
    · simp [firsts, hg]
    · have hkept : g ∈ ((firsts es).filter fun e' => e'.guard ≠ e.guard).map guard ↔
          g ∈ (firsts es).map guard := by
        simp only [List.mem_map, List.mem_filter, decide_eq_true_eq]
        constructor
        · rintro ⟨e', ⟨he', -⟩, rfl⟩
          exact ⟨e', he', rfl⟩
        · rintro ⟨e', he', rfl⟩
          exact ⟨e', ⟨he', hg⟩, rfl⟩
      rw [firsts, List.map_cons, List.map_cons, List.mem_cons, List.mem_cons, hkept, ih]

theorem nodup_guards_firsts (es : List (SiteEntry τ)) : ((firsts es).map guard).Nodup := by
  induction es with
  | nil => exact List.nodup_nil
  | cons e es ih =>
    rw [firsts, List.map_cons, List.nodup_cons]
    exact ⟨by simp, ih.sublist (List.filter_sublist.map _)⟩

/-- An entry at the end is a first one unless its guard is there before. -/
theorem firsts_concat (es : List (SiteEntry τ)) (e : SiteEntry τ) :
    firsts (es ++ [e]) = if e.guard ∈ es.map guard then firsts es else firsts es ++ [e] := by
  induction es with
  | nil => rfl
  | cons e' es ih =>
    simp only [List.cons_append, firsts, ih, List.map_cons, List.mem_cons]
    by_cases hlater : e.guard ∈ es.map guard
    · rw [if_pos hlater, if_pos (.inr hlater)]
    · rw [if_neg hlater, List.filter_append]
      by_cases hsame : e.guard = e'.guard
      · simp [hsame]
      · simp [hsame, hlater]

/-- There are as many first entries as there are guards. -/
theorem length_firsts (es : List (SiteEntry τ)) :
    (firsts es).length = (es.map guard).toFinset.card := by
  have hguards : ((firsts es).map guard).toFinset = (es.map guard).toFinset := by
    ext g
    rw [List.mem_toFinset, List.mem_toFinset, mem_guards_firsts]
  rw [← hguards, List.toFinset_card_of_nodup (nodup_guards_firsts es), List.length_map]

end SiteEntry

namespace SiteState

variable {es es' : List (SiteEntry τ)} {limit : Nat}

/-- One more entry is installed where the first ones fitted, or did not. -/
theorem Change.onList_firsts (es : List (SiteEntry τ)) (e : SiteEntry τ) (limit : Nat) :
    (if (SiteEntry.firsts es).length ≤ limit then some (SiteEntry.firsts es) else none).bind
        (install e limit).onList =
      if (SiteEntry.firsts (es ++ [e])).length ≤ limit then some (SiteEntry.firsts (es ++ [e]))
      else none := by
  rw [SiteEntry.firsts_concat]
  by_cases hknown : e.guard ∈ es.map SiteEntry.guard
  · rw [if_pos hknown]
    split
    · simp only [Option.bind_some, onList, SiteEntry.mem_guards_firsts, if_pos hknown]
    · rfl
  · rw [if_neg hknown, List.length_append, List.length_singleton]
    split
    · simp only [Option.bind_some, onList, SiteEntry.mem_guards_firsts, if_neg hknown]
      rfl
    · rw [if_neg (by omega)]
      rfl

/-- Installations under one limit leave the first entry for each guard if the limit has room for them. -/
theorem standsFor_installs (es : List (SiteEntry τ)) (limit : Nat) :
    ((empty : SiteState τ).after (es.map fun e => .install e limit)).StandsFor
      (if (SiteEntry.firsts es).length ≤ limit then some (SiteEntry.firsts es) else none) := by
  induction es using List.reverseRecOn with
  | nil => exact .empty
  | append_singleton es e ih =>
    have hstep := ih.change (.install e limit)
    rw [Change.onList_firsts] at hstep
    rw [List.map_append, after, List.foldl_append]
    exact hstep

/-- Whatever is done to a state, beginning with the empty one: it stands for what the same does to the
empty list, in which no guard occurs twice; the next change is a change of this list; what is found for a
guard is the entry of the list that has it; and once too many were seen, that is final.

If entries are installed under one limit and nothing else is done, then too many were seen exactly if there
are more guards than the limit, in whatever order the entries come. Otherwise there is the first entry for
each guard, in the order of the installations. -/
theorem refines_boundedList (cs : List (Change τ)) :
    let s := (empty : SiteState τ).after cs
    let l := Change.allOnList (some []) cs
    s.StandsFor l ∧
    (∀ es ∈ l, (es.map SiteEntry.guard).Nodup) ∧
    (∀ c, (s.change c).StandsFor (l.bind c.onList)) ∧
    (∀ es ∈ l, ∀ g e, s.find? g = some e ↔ e ∈ es ∧ e.guard = g) ∧
    (l = none → ∀ cs', s.after cs' = .megamorphic) ∧
    ∀ (limit : Nat) (es es' : List (SiteEntry τ)), es.Perm es' →
      let installed := (empty : SiteState τ).after (es'.map fun e => .install e limit)
      (installed = .megamorphic ↔ limit < (es.map SiteEntry.guard).toFinset.card) ∧
      (installed ≠ .megamorphic → installed.StandsFor (some (SiteEntry.firsts es'))) := by
  intro s l
  have hstands : s.StandsFor l := StandsFor.empty.after cs
  have hnodup : ∀ es ∈ l, (es.map SiteEntry.guard).Nodup :=
    Change.nodup_allOnList fun es hes => by
      obtain rfl := Option.some.inj hes
      exact List.nodup_nil
  refine ⟨hstands, hnodup, hstands.change, fun es hes g e => ?_, fun hnone cs' => ?_, ?_⟩
  · have hes' : l = some es := hes
    rw [hes'] at hstands
    have hguards := hnodup es hes
    rw [← hstands.entries_eq] at hguards ⊢
    exact find?_eq_some_iff hguards
  · rw [hstands.eq_megamorphic_iff.mpr hnone]
    exact after_megamorphic cs'
  · intro limit es es' hperm installed
    have hinstalled := standsFor_installs es' limit
    -- Entries in another order have the same guards, and their number alone decides whether there is room.
    have hguards : (es.map SiteEntry.guard).toFinset.card = (SiteEntry.firsts es').length := by
      rw [SiteEntry.length_firsts, List.toFinset_eq_of_perm _ _ (hperm.map _)]
    rw [hguards]
    by_cases hfits : (SiteEntry.firsts es').length ≤ limit
    · rw [if_pos hfits] at hinstalled
      refine ⟨?_, fun _ => hinstalled⟩
      rw [hinstalled.eq_megamorphic_iff]
      exact iff_of_false (by simp) (by omega)
    · rw [if_neg hfits] at hinstalled
      have hmega := hinstalled.eq_megamorphic_iff.mpr rfl
      exact ⟨iff_of_true hmega (by omega), fun hnot => absurd hmega hnot⟩

end SiteState

end LateBinding
