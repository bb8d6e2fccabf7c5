import LateBinding.Proofs.Hierarchy.Operations
import Mathlib.Data.List.Nodup

namespace LateBinding

namespace Hierarchy

open Relation

variable {τ : Type} {h : Hierarchy τ} {inherited listed : List ClassId}

/-- A list without repetition is mixed in by leaving out what is listed or inherited: no element is
listed on the way that comes again. -/
theorem mixIn_eq_append {ancestors : List ClassId} (hnodup : ancestors.Nodup) :
    mixIn inherited listed ancestors =
      listed ++ ancestors.filter fun a => a ∉ listed ∧ a ∉ inherited := by
  induction ancestors generalizing listed with
  | nil => simp [mixIn]
  | cons a as ih =>
    obtain ⟨hfresh, hrest⟩ := List.nodup_cons.mp hnodup
    have hstep : mixIn inherited listed (a :: as) =
        mixIn inherited (if a ∈ listed ∨ a ∈ inherited then listed else listed ++ [a]) as := rfl
    rw [hstep, ih hrest]
    by_cases hout : a ∈ listed ∨ a ∈ inherited
    · rw [if_pos hout, List.filter_cons_of_neg]
      simpa only [decide_eq_true_eq, not_and_or, not_not] using hout
    · have hsame : (as.filter fun x => x ∉ listed ++ [a] ∧ x ∉ inherited) =
          as.filter fun x => x ∉ listed ∧ x ∉ inherited := by
        refine List.filter_congr fun x hx => ?_
        have hne : x ≠ a := ne_of_mem_of_not_mem hx hfresh
        simp [hne]
      rw [if_neg hout, hsame, List.filter_cons_of_pos, List.append_assoc, List.singleton_append]
      simpa only [decide_eq_true_eq, not_or] using hout

theorem nodup_mixIn (inherited : List ClassId) {ancestors : List ClassId} (hlisted : listed.Nodup)
    (hnodup : ancestors.Nodup) : (mixIn inherited listed ancestors).Nodup := by
  rw [mixIn_eq_append hnodup]
  refine hlisted.append (hnodup.filter _) fun x hx hx' => ?_
  have hnew := (List.mem_filter.mp hx').2
  simp only [decide_eq_true_eq] at hnew
  exact hnew.1 hx

/-- Mixing in several lists without repetition, one after the other. -/
theorem foldl_mixIn (inherited : List ClassId) {g : ClassId → List ClassId} {ms : List ClassId}
    (hg : ∀ m ∈ ms, (g m).Nodup) (hlisted : listed.Nodup) :
    ms.foldl (fun listed m => mixIn inherited listed (g m)) listed =
        ms.foldl (fun listed m => listed ++ (g m).filter fun a => a ∉ listed ∧ a ∉ inherited) listed ∧
      (ms.foldl (fun listed m => mixIn inherited listed (g m)) listed).Nodup ∧
        listed <+: ms.foldl (fun listed m => mixIn inherited listed (g m)) listed := by
  induction ms generalizing listed with
  | nil => exact ⟨rfl, hlisted, List.prefix_refl _⟩
  | cons m ms ih =>
    have hm := hg m (by simp)
    obtain ⟨hfold, hnodup, hprefix⟩ := ih (fun m hmem => hg m (by simp [hmem]))
      (nodup_mixIn inherited hlisted hm)
    simp only [List.foldl_cons]
    refine ⟨by rw [hfold, mixIn_eq_append hm], hnodup, .trans ?_ hprefix⟩
    rw [mixIn_eq_append hm]
    exact List.prefix_append _ _

/-- The ancestors of a record before those that its superclass brings. -/
def ownPart (ancestorsOf : ClassId → List ClassId) (inherited : List ClassId) (id : ClassId)
    (r : Record τ) : List ClassId :=
  r.includes.reverse.foldl (fun listed m => mixIn inherited listed (ancestorsOf m)) [id]

theorem expand_eq (g : ClassId → List ClassId) (id : ClassId) (r : Record τ) :
    expand g id r = ownPart g (r.superclass.elim [] g) id r ++ r.superclass.elim [] g := rfl

theorem nodup_ownPart {g : ClassId → List ClassId} {r : Record τ}
    (hg : ∀ m ∈ r.includes, (g m).Nodup) (inherited : List ClassId) (id : ClassId) :
    (ownPart g inherited id r).Nodup :=
  (foldl_mixIn inherited (fun m hm => hg m (List.mem_reverse.mp hm)) (List.nodup_singleton id)).2.1

theorem disjoint_ownPart {g : ClassId → List ClassId} {id : ClassId} (hid : id ∉ inherited)
    (r : Record τ) : (ownPart g inherited id r).Disjoint inherited := by
  intro x hx
  rcases (mem_foldl_mixIn ..).mp hx with hself | ⟨hnew, -⟩
  · rwa [List.mem_singleton.mp hself]
  · exact hnew

/-- What the superclass of a record brings stands last, as it is. -/
theorem Stratified.superclass_suffix (hh : h.Stratified) {id parent : ClassId} {r : Record τ}
    (hr : h.get? id = some r) (hparent : r.superclass = some parent) :
    h.linearize parent <:+ h.linearize id := by
  rw [hh.linearize_of_get? hr, expand_eq, hparent]
  exact List.suffix_append _ _

/-- A record is not among the ancestors of its superclass. -/
theorem Stratified.not_mem_inherited (hh : h.Stratified) {id : ClassId} {r : Record τ}
    (hr : h.get? id = some r) : id ∉ r.superclass.elim [] h.linearize := by
  cases hsuper : r.superclass with
  | none => simp
  | some parent =>
    intro hmem
    have hedge : h.Edge id parent := edge_iff.mpr ⟨r, hr, by simp [Record.links, hsuper]⟩
    exact hh.acyclic id (.head' hedge (hh.mem_linearize_iff.mp hmem).2)

/-- No record is listed twice. -/
theorem Stratified.nodup_linearize (hh : h.Stratified) (id : ClassId) : (h.linearize id).Nodup := by
  induction id using hh.induction with
  | _ id ih =>
    cases hr : h.get? id with
    | none =>
      rw [linearize_unknown hr]
      exact List.nodup_nil
    | some r =>
      have hbelow {b : ClassId} (hb : b ∈ r.links) : (h.linearize b).Nodup :=
        ih b (edge_iff.mpr ⟨r, hr, hb⟩)
      have hinherited : (r.superclass.elim [] h.linearize).Nodup := by
        cases hsuper : r.superclass with
        | none => exact List.nodup_nil
        | some parent => exact hbelow (by simp [Record.links, hsuper])
      rw [hh.linearize_of_get? hr, expand_eq]
      refine .append (nodup_ownPart (fun m hm => ?_) _ id) hinherited
        (disjoint_ownPart (hh.not_mem_inherited hr) r)
      exact hbelow (by simp [Record.links, hm])

/-- A record that exists stands first in its list. -/
theorem Stratified.linearize_eq_cons (hh : h.Stratified) {id : ClassId} (hid : h.Knows id) :
    ∃ rest, h.linearize id = id :: rest := by
  obtain ⟨r, hr⟩ := hid.get?
  obtain ⟨-, -, rest, hrest⟩ := foldl_mixIn (r.superclass.elim [] h.linearize)
    (fun m (_ : m ∈ r.includes.reverse) => hh.nodup_linearize m) (List.nodup_singleton id)
  refine ⟨rest ++ r.superclass.elim [] h.linearize, ?_⟩
  rw [hh.linearize_of_get? hr, expand_eq, ownPart, ← hrest]
  rfl

/-- Whatever was done with a hierarchy, the ancestors of a record are its own part and what its
superclass brings. The own part is the record, followed by the ancestors of its included modules,
those of the last included module first, each without what is listed before or inherited. No record
is listed twice, and the records that are listed are those on which the record builds. -/
theorem ancestors_eq_after {ops : List (Operation τ)} (hops : (empty : Hierarchy τ).Supports ops)
    {id : ClassId} {r : Record τ} (hr : (empty.after ops : Hierarchy τ).get? id = some r) :
    let h : Hierarchy τ := empty.after ops
    let inherited := r.superclass.elim [] fun parent => (h.ancestors parent).1
    let own := r.includes.reverse.foldl
      (fun listed m => listed ++ (h.ancestors m).1.filter fun a => a ∉ listed ∧ a ∉ inherited) [id]
    (h.ancestors id).1 = own ++ inherited ∧
      (h.ancestors id).1.head? = some id ∧
        (h.ancestors id).1.Nodup ∧
          own.Disjoint inherited ∧
            ∀ x, x ∈ (h.ancestors id).1 ↔ h.Knows x ∧ h.Reaches id x := by
  intro h inherited own
  have hh : h.Sound := sound_after hops
  have hlists : (fun id => (h.ancestors id).1) = h.linearize := funext hh.ancestors_fst
  have hinherited : inherited = r.superclass.elim [] h.linearize := by
    simp only [inherited, hlists]
  have honce : ∀ m ∈ r.includes.reverse, (h.linearize m).Nodup := fun m _ => hh.nodup_linearize m
  -- As no list has repeats, each module adds a filtered copy of its own list.
  obtain ⟨hfold, -, hprefix⟩ := foldl_mixIn inherited honce (List.nodup_singleton id)
  have hown : own = ownPart h.linearize inherited id r := by
    simp only [own, hh.ancestors_fst]
    exact hfold.symm
  have hlist : (h.ancestors id).1 = own ++ inherited := by
    rw [hh.ancestors_fst, hh.linearize_of_get? hr, expand_eq, hown, hinherited]
  refine ⟨hlist, ?_, ?_, ?_, fun x => ?_⟩
  · obtain ⟨rest, hrest⟩ := hprefix
    rw [hlist, hown, ownPart, ← hrest]
    rfl
  · rw [hh.ancestors_fst]
    exact hh.nodup_linearize id
  · rw [hown]
    exact disjoint_ownPart (hinherited ▸ hh.not_mem_inherited hr) r
  · rw [hh.ancestors_fst, hh.mem_linearize_iff]
    have hid : h.Knows id := .of_get? hr
    exact ⟨fun hx => ⟨hh.knows_of_reaches hid hx.2, hx.2⟩, fun hx => ⟨hid, hx.2⟩⟩

/-- Two modules that build on the same one are mixed into a class, one of them by way of another
module and below a class that has the other already: what it brings is listed once, and where it is
inherited. -/
theorem ancestors_eq_after_diamond :
    let ops : List (Operation Unit) :=
      [.edit (.create "A" none {}), .edit (.create "K" none { isModule := true }),
        .edit (.create "M" none { isModule := true }), .edit (.create "N" none { isModule := true }),
        .edit (.create "B" (some ⟨0⟩) {}), .edit (.create "P" none { isModule := true }),
        .edit (.addInclude ⟨2⟩ ⟨1⟩), .edit (.addInclude ⟨3⟩ ⟨1⟩), .edit (.addInclude ⟨0⟩ ⟨2⟩),
        .walk ⟨4⟩ ⟨"name"⟩, .edit (.addInclude ⟨5⟩ ⟨3⟩), .edit (.addInclude ⟨4⟩ ⟨5⟩)]
    let h : Hierarchy Unit := empty.after ops
    (h.ancestors ⟨4⟩).1 = [⟨4⟩, ⟨5⟩, ⟨3⟩] ++ [⟨0⟩, ⟨2⟩, ⟨1⟩] ∧ (h.ancestors ⟨4⟩).1.Nodup ∧
      h.Reaches ⟨4⟩ ⟨1⟩ := by
  intro ops h
  have hops : (empty : Hierarchy Unit).Supports ops := by decide +kernel
  have hshape : h.shape? ⟨4⟩ = some (some ⟨0⟩, [⟨5⟩]) := by decide +kernel
  obtain ⟨r, hr, hlinks⟩ := Option.map_eq_some_iff.mp hshape
  obtain ⟨hsuper, hincludes⟩ := Prod.mk.inj hlinks
  have hinherited : (h.ancestors ⟨0⟩).1 = [⟨0⟩, ⟨2⟩, ⟨1⟩] := by decide +kernel
  have hmodule : (h.ancestors ⟨5⟩).1 = [⟨5⟩, ⟨3⟩, ⟨1⟩] := by decide +kernel
  obtain ⟨hlist, -, hnodup, -, hmem⟩ := ancestors_eq_after hops hr
  have hparts : (h.ancestors ⟨4⟩).1 = [⟨4⟩, ⟨5⟩, ⟨3⟩] ++ [⟨0⟩, ⟨2⟩, ⟨1⟩] := by
    rw [hlist, hsuper, hincludes, Option.elim_some, hinherited, List.reverse_singleton,
      List.foldl_cons, hmodule]
    rfl
  exact ⟨hparts, hnodup, ((hmem ⟨1⟩).mp (by rw [hparts]; decide)).2⟩

end Hierarchy

end LateBinding
