import LateBinding.Proofs.Hierarchy.Operations

namespace LateBinding

open Relation

variable {τ : Type}

namespace Hierarchy

variable {h : Hierarchy τ}

theorem edge_of_superclass {id parent : ClassId} {r : Record τ} (hr : h.get? id = some r)
    (hparent : r.superclass = some parent) : h.Edge id parent :=
  edge_iff.mpr ⟨r, hr, by simp [Record.links, hparent]⟩

private theorem mixInAllKept_mono
    {f g : Hierarchy τ → ClassId → Option (List ClassId × Hierarchy τ)}
    (hfg : ∀ h m x, f h m = some x → g h m = some x) {inherited ms listed : List ClassId}
    {x : List ClassId × Hierarchy τ} (hx : mixInAllKept f inherited ms listed h = some x) :
    mixInAllKept g inherited ms listed h = some x := by
  induction ms generalizing listed h with
  | nil => exact hx
  | cons m ms ih =>
    rw [mixInAllKept] at hx ⊢
    obtain ⟨⟨list, h₁⟩, hm, hrest⟩ := Option.bind_eq_some_iff.mp hx
    rw [hfg h m _ hm]
    exact ih hrest

/-- The ancestors of a record that remembers none, by those of its superclass and then those of its
included modules. -/
theorem ancestorsWithin_succ {depth : Nat} {id : ClassId} {r : Record τ}
    (hr : h.get? id = some r) (hmemo : r.remembered? h.epoch = none) :
    ancestorsWithin (depth + 1) h id =
      (r.superclass.elim (some ([], h)) (ancestorsWithin depth h)).bind fun inherited =>
        (mixInAllKept (ancestorsWithin depth) inherited.1 r.includes.reverse [id]
          inherited.2).map fun own =>
            (own.1 ++ inherited.1, own.2.remember id (own.1 ++ inherited.1)) := by
  rw [ancestorsWithin, hr]
  cases hs : r.superclass with
  | none => simp [hmemo, hs, Option.map_eq_bind]
  | some parent => simp [hmemo, hs, Option.map_eq_bind]

theorem ancestorsWithin_mono {depth depth' : Nat} (hle : depth ≤ depth') {id : ClassId}
    {x : List ClassId × Hierarchy τ} (hx : ancestorsWithin depth h id = some x) :
    ancestorsWithin depth' h id = some x := by
  induction depth generalizing depth' h id x with
  | zero => cases hx
  | succ depth ih =>
    obtain ⟨depth', rfl⟩ : ∃ d, depth' = d + 1 := ⟨depth' - 1, by omega⟩
    have hbelow (h : Hierarchy τ) (m : ClassId) (x : List ClassId × Hierarchy τ)
        (hx : ancestorsWithin depth h m = some x) : ancestorsWithin depth' h m = some x :=
      ih (by omega) hx
    cases hr : h.get? id with
    | none => simpa only [ancestorsWithin_unknown hr] using hx
    | some r =>
      cases hmemo : r.remembered? h.epoch with
      | some list => simpa only [ancestorsWithin, hr, hmemo] using hx
      | none =>
        rw [ancestorsWithin_succ hr hmemo] at hx ⊢
        obtain ⟨inherited, hsuper, hrest⟩ := Option.bind_eq_some_iff.mp hx
        obtain ⟨own, hmixed, rfl⟩ := Option.map_eq_some_iff.mp hrest
        have hsuper' : r.superclass.elim (some ([], h)) (ancestorsWithin depth' h) =
            some inherited := by
          cases hs : r.superclass with
          | none => simpa only [hs, Option.elim_none] using hsuper
          | some parent =>
            rw [hs] at hsuper
            exact hbelow h parent _ hsuper
        rw [hsuper', Option.bind_some, mixInAllKept_mono hbelow hmixed, Option.map_some]

end Hierarchy

namespace CoreClasses

variable {h : Hierarchy τ}

theorem nearestMetaclassWithin_mono {depth depth' : Nat} (hle : depth ≤ depth') {id : ClassId}
    {x : Option ClassId} (hx : nearestMetaclassWithin h depth id = some x) :
    nearestMetaclassWithin h depth' id = some x := by
  induction depth generalizing depth' id with
  | zero => cases hx
  | succ depth ih =>
    obtain ⟨depth', rfl⟩ : ∃ d, depth' = d + 1 := ⟨depth' - 1, by omega⟩
    rw [nearestMetaclassWithin] at hx ⊢
    split at hx
    · exact hx
    · split at hx
      · exact hx
      · exact hx
      · exact hx
      · exact ih (by omega) hx

theorem metaclassWithin_mono (core : CoreClasses) {depth depth' : Nat} (hle : depth ≤ depth')
    {id : ClassId} {x : Except Fault ClassId × Hierarchy τ}
    (hx : core.metaclassWithin depth h id = some x) :
    core.metaclassWithin depth' h id = some x := by
  induction depth generalizing depth' h id x with
  | zero => cases hx
  | succ depth ih =>
    obtain ⟨depth', rfl⟩ : ∃ d, depth' = d + 1 := ⟨depth' - 1, by omega⟩
    rw [metaclassWithin] at hx ⊢
    split at hx
    · exact hx
    · split at hx
      · exact hx
      · split at hx
        · rename_i hmodule
          rwa [if_pos hmodule]
        · rename_i hmodule
          rw [if_neg hmodule]
          split at hx
          · exact hx
          · obtain ⟨above, hup, hrest⟩ := Option.bind_eq_some_iff.mp hx
            rw [ih (by omega) hup]
            exact hrest

/-- The way up to the nearest singleton class ends, since every step goes down. -/
theorem nearestMetaclassWithin_ends (hh : h.Stratified) {depth : Nat} {id : ClassId}
    (hdepth : h.height id < depth) : ∃ m, nearestMetaclassWithin h depth id = some m := by
  induction id using hh.induction generalizing depth with
  | _ id ih =>
    obtain ⟨depth, rfl⟩ : ∃ d, depth = d + 1 := ⟨depth - 1, by omega⟩
    rw [nearestMetaclassWithin]
    split
    · exact ⟨none, rfl⟩
    · rename_i r hr
      split
      · exact ⟨_, rfl⟩
      · exact ⟨none, rfl⟩
      · exact ⟨none, rfl⟩
      · rename_i parent _ _ hparent
        have hedge := Hierarchy.edge_of_superclass hr hparent
        have hlt := hh.height_lt hedge
        exact ih parent hedge (by omega)

theorem metaclassWithin_ends (core : CoreClasses) (hh : h.Stratified) {depth : Nat} {id : ClassId}
    (hdepth : h.height id < depth) : ∃ made, core.metaclassWithin depth h id = some made := by
  induction id using hh.induction generalizing depth with
  | _ id ih =>
    obtain ⟨depth, rfl⟩ : ∃ d, depth = d + 1 := ⟨depth - 1, by omega⟩
    rw [metaclassWithin]
    split
    · exact ⟨_, rfl⟩
    · rename_i r hr
      split
      · exact ⟨_, rfl⟩
      · split
        · exact ⟨_, rfl⟩
        · split
          · exact ⟨_, rfl⟩
          · rename_i parent hparent
            have hedge := Hierarchy.edge_of_superclass hr hparent
            have hlt := hh.height_lt hedge
            obtain ⟨⟨above, h₁⟩, hup⟩ := ih parent hedge (show h.height parent < depth by omega)
            rw [hup]
            cases above with
            | ok above => exact ⟨_, rfl⟩
            | error f => exact ⟨_, rfl⟩

end CoreClasses

namespace Hierarchy

variable {h : Hierarchy τ}

theorem Sound.ancestorsWithin_eq_ancestors (hh : h.Sound) (id : ClassId) {depth : Nat}
    (hdepth : h.size < depth) : ancestorsWithin depth h id = some (h.ancestors id) := by
  have hheight := h.height_le_size id
  obtain ⟨h', heq, -⟩ := hh.ancestorsWithin_eq hh.recalls_refl
    (show h.height id < h.size + 1 by omega)
  rw [ancestors, heq, Option.getD_some]
  exact ancestorsWithin_mono hdepth heq

theorem Stratified.nearestMetaclassWithin_eq (hh : h.Stratified) (id : ClassId) {depth : Nat}
    (hdepth : h.size < depth) :
    CoreClasses.nearestMetaclassWithin h depth id = some (CoreClasses.nearestMetaclass h id) := by
  have hheight := h.height_le_size id
  obtain ⟨m, heq⟩ := CoreClasses.nearestMetaclassWithin_ends hh
    (show h.height id < h.size + 1 by omega)
  rw [CoreClasses.nearestMetaclass, heq, Option.getD_some]
  exact CoreClasses.nearestMetaclassWithin_mono hdepth heq

theorem Stratified.metaclassWithin_eq (hh : h.Stratified) (core : CoreClasses) (id : ClassId)
    {depth : Nat} (hdepth : h.size < depth) :
    core.metaclassWithin depth h id = some (core.metaclassOf h id) := by
  have hheight := h.height_le_size id
  obtain ⟨made, heq⟩ := core.metaclassWithin_ends hh (show h.height id < h.size + 1 by omega)
  rw [CoreClasses.metaclassOf, heq, Option.getD_some]
  exact core.metaclassWithin_mono hdepth heq

theorem Sound.isAncestor_iff (hh : h.Sound) {a b : ClassId} :
    (h.isAncestor a b).1 = true ↔ h.Knows a ∧ h.Reaches a b := by
  rw [hh.isAncestor_eq, decide_eq_true_iff, hh.mem_linearize_iff]

theorem Stratified.eq_of_reaches (hh : h.Stratified) {a b : ClassId} (hab : h.Reaches a b)
    (hba : h.Reaches b a) : a = b := by
  rcases reflTransGen_iff_eq_or_transGen.mp hab with heq | hpath
  · exact heq.symm
  · exact absurd (hpath.trans_left hba) (hh.acyclic a)

/-- Whatever was done with a hierarchy, no record builds on itself, being an ancestor is an order on
the records, and the recursions along superclasses and included modules end: a depth beyond the
number of records always yields a result, and always the same. -/
theorem acyclic_after {ops : List (Operation τ)} (hops : (empty : Hierarchy τ).Supports ops) :
    let h : Hierarchy τ := empty.after ops
    (∀ a, ¬ TransGen h.Edge a a) ∧
      (∀ a, h.Knows a → (h.isAncestor a a).1 = true) ∧
      (∀ a b, (h.isAncestor a b).1 = true → (h.isAncestor b a).1 = true → a = b) ∧
      (∀ a b c, (h.isAncestor a b).1 = true → (h.isAncestor b c).1 = true →
        (h.isAncestor a c).1 = true) ∧
      ∀ id depth, h.size < depth →
        h.linearizeWithin depth id = some (h.linearize id) ∧
          ancestorsWithin depth h id = some (h.ancestors id) ∧
          CoreClasses.nearestMetaclassWithin h depth id =
            some (CoreClasses.nearestMetaclass h id) ∧
          ∀ core : CoreClasses, core.metaclassWithin depth h id = some (core.metaclassOf h id) := by
  intro h
  have hh : h.Sound := sound_after hops
  refine ⟨hh.acyclic, fun a ha => ?_, fun a b hab hba => ?_, fun a b c hab hbc => ?_,
    fun id depth hdepth => ⟨?_, ?_, ?_, fun core => ?_⟩⟩
  · exact hh.isAncestor_iff.mpr ⟨ha, .refl⟩
  · exact hh.eq_of_reaches (hh.isAncestor_iff.mp hab).2 (hh.isAncestor_iff.mp hba).2
  · obtain ⟨ha, hreach⟩ := hh.isAncestor_iff.mp hab
    exact hh.isAncestor_iff.mpr ⟨ha, hreach.trans (hh.isAncestor_iff.mp hbc).2⟩
  · exact hh.linearizeWithin_eq (Nat.lt_of_le_of_lt (h.height_le_size id) hdepth)
  · exact hh.ancestorsWithin_eq_ancestors id hdepth
  · exact hh.nearestMetaclassWithin_eq id hdepth
  · exact hh.metaclassWithin_eq core id hdepth

/-- Requests that would close a cycle through an included module and a superclass are refused, and
the singleton classes along the superclasses are made. -/
theorem acyclic_after_refused_cycles :
    let core : CoreClasses := (CoreClasses.bootstrap (empty : Hierarchy Unit)).1
    let ops : List (Operation Unit) :=
      [.edit (.create "A" none {}), .edit (.create "M" none { isModule := true }),
        .edit (.create "B" (some ⟨0⟩) {}), .edit (.addInclude ⟨0⟩ ⟨1⟩),
        .edit (.setSuperclass ⟨0⟩ ⟨2⟩), .edit (.addInclude ⟨1⟩ ⟨1⟩)] ++
      (List.replicate 10 (.edit (.create "C" (some ⟨2⟩) {}))) ++
      [.singletonClassOf core (.module ⟨2⟩), .edit (.setSuperclass ⟨0⟩ ⟨13⟩)]
    let h : Hierarchy Unit := empty.after ops
    ¬ TransGen h.Edge ⟨0⟩ ⟨0⟩ ∧ core.metaclassWithin 20 h ⟨12⟩ = some (core.metaclassOf h ⟨12⟩) := by
  intro core ops h
  have hops : (empty : Hierarchy Unit).Supports ops := by decide +kernel
  have hsize : h.size < 20 := by decide +kernel
  obtain ⟨hacyclic, -, -, -, hends⟩ := acyclic_after hops
  exact ⟨hacyclic ⟨0⟩, (hends ⟨12⟩ 20 hsize).2.2.2 core⟩

end Hierarchy

end LateBinding
