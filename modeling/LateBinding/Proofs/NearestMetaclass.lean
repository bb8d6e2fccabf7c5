import LateBinding.Proofs.Hierarchy.Lasting

namespace LateBinding

open Relation

variable {τ : Type}

namespace CoreClasses

open Hierarchy

variable {h h' : Hierarchy τ} {a b m : ClassId}

/-- The search for a singleton class goes on from a class to its superclass. -/
def Climbs (h : Hierarchy τ) (a b : ClassId) : Prop :=
  ∃ k, h.kin? a = some k ∧ k.metaclass = none ∧ k.flags.isModule = false ∧ k.superclass = some b

theorem Climbs.knows (hab : Climbs h a b) : h.Knows a := by
  obtain ⟨k, hk, -⟩ := hab
  exact .of_kin? hk

theorem Climbs.edge (hab : Climbs h a b) : h.Edge a b := by
  obtain ⟨k, hk, -, -, hsuper⟩ := hab
  exact edge_of_kin? hk hsuper

theorem Climbs.congr (hab : Climbs h a b) (hkin : h'.kin? a = h.kin? a) : Climbs h' a b := by
  rwa [Climbs, hkin]

theorem nearestMetaclassWithin_of_climbs (hab : Climbs h a b) (depth : Nat) :
    nearestMetaclassWithin h (depth + 1) a = nearestMetaclassWithin h depth b := by
  obtain ⟨k, hk, hnone, hmodule, hsuper⟩ := hab
  obtain ⟨r, hr, rfl⟩ := kin?_eq_some_iff.mp hk
  have hnone : r.metaclass = none := hnone
  have hmodule : r.isModule = false := hmodule
  have hsuper : r.superclass = some b := hsuper
  simp only [nearestMetaclassWithin, hr, hnone, hmodule, hsuper]

theorem nearestMetaclassWithin_of_not_climbs (hstop : ∀ b, ¬ Climbs h a b) (depth : Nat) :
    nearestMetaclassWithin h (depth + 1) a = some (h.metaclass? a) := by
  rw [nearestMetaclassWithin, metaclass?_eq_join]
  cases hr : h.get? a with
  | none => rfl
  | some r =>
    simp only [Option.map_some, Option.join_some]
    split
    · rename_i m hm
      rw [hm]
    · rename_i hnone _
      rw [hnone]
    · rename_i hnone _ _
      rw [hnone]
    · rename_i parent hnone hmodule hsuper
      exact absurd ⟨r.kin, kin?_eq_some_iff.mpr ⟨r, hr, rfl⟩, hnone, hmodule, hsuper⟩
        (hstop parent)

/-- A search that ends never comes back to where it was. -/
theorem not_transGen_of_nearestMetaclassWithin {depth : Nat} {x : Option ClassId}
    (hx : nearestMetaclassWithin h depth a = some x) : ¬ TransGen (Climbs h) a a := by
  intro hcycle
  induction depth generalizing a with
  | zero => cases hx
  | succ depth ih =>
    obtain ⟨b, hab, hback⟩ := TransGen.head'_iff.mp hcycle
    rw [nearestMetaclassWithin_of_climbs hab] at hx
    exact ih hx (.tail' hback hab)

/-- A depth beyond the number of records that the search can come to is enough. -/
theorem nearestMetaclassWithin_of_span {depth depth' : Nat} {x : Option ClassId}
    (hx : nearestMetaclassWithin h depth a = some x) (hdepth : h.span (Climbs h) a < depth') :
    nearestMetaclassWithin h depth' a = some x := by
  induction depth generalizing a depth' with
  | zero => cases hx
  | succ depth ih =>
    obtain ⟨depth', rfl⟩ : ∃ d, depth' = d + 1 := ⟨depth' - 1, by omega⟩
    by_cases hclimbs : ∃ b, Climbs h a b
    · obtain ⟨b, hab⟩ := hclimbs
      have hlt := span_lt hab.knows hab fun hback =>
        not_transGen_of_nearestMetaclassWithin hx (.head' hab hback)
      rw [nearestMetaclassWithin_of_climbs hab] at hx ⊢
      exact ih hx (by omega)
    · have hstop := not_exists.mp hclimbs
      rw [nearestMetaclassWithin_of_not_climbs hstop] at hx ⊢
      exact hx

/-- With depth enough, more depth makes no difference, whether the search ends or not. -/
theorem getD_nearestMetaclassWithin {depth : Nat} (hdepth : h.size < depth) :
    (nearestMetaclassWithin h depth a).getD none = nearestMetaclass h a := by
  have hle := h.span_le_size (Climbs h) a
  have hmove {depth depth' : Nat} {x : Option ClassId} (hlt : h.size < depth')
      (hx : nearestMetaclassWithin h depth a = some x) :
      nearestMetaclassWithin h depth' a = some x :=
    nearestMetaclassWithin_of_span hx (by omega)
  rw [nearestMetaclass]
  congr 1
  cases hx : nearestMetaclassWithin h depth a with
  | some x => rw [hmove (Nat.lt_succ_self _) hx]
  | none =>
    cases hy : nearestMetaclassWithin h (h.size + 1) a with
    | none => rfl
    | some y =>
      rw [hmove hdepth hy] at hx
      cases hx

theorem nearestMetaclass_of_climbs (hab : Climbs h a b) :
    nearestMetaclass h a = nearestMetaclass h b := by
  rw [← getD_nearestMetaclassWithin (a := a) (show h.size < h.size + 1 + 1 by omega),
    nearestMetaclassWithin_of_climbs hab, nearestMetaclass]

theorem nearestMetaclass_of_not_climbs (hstop : ∀ b, ¬ Climbs h a b) :
    nearestMetaclass h a = h.metaclass? a := by
  rw [nearestMetaclass, nearestMetaclassWithin_of_not_climbs hstop, Option.getD_some]

/-- The search ends at a record that has its singleton class. -/
theorem nearestMetaclass_of_metaclass? (hm : h.metaclass? a = some m) :
    nearestMetaclass h a = some m := by
  rw [nearestMetaclass_of_not_climbs, hm]
  rintro b ⟨k, hk, hnone, -⟩
  rw [metaclass?_eq hk, hnone] at hm
  cases hm

theorem nearestMetaclass_of_path (hpath : ReflTransGen (Climbs h) a b) :
    nearestMetaclass h a = nearestMetaclass h b := by
  induction hpath using ReflTransGen.head_induction_on with
  | refl => rfl
  | head hstep _ ih => rw [nearestMetaclass_of_climbs hstep, ih]

/-- What is found is the singleton class of some record. -/
theorem exists_metaclass?_of_nearestMetaclass (hm : nearestMetaclass h a = some m) :
    ∃ b, h.metaclass? b = some m := by
  rw [nearestMetaclass] at hm
  generalize h.size + 1 = depth at hm
  induction depth generalizing a with
  | zero => cases hm
  | succ depth ih =>
    by_cases hclimbs : ∃ b, Climbs h a b
    · obtain ⟨b, hab⟩ := hclimbs
      rw [nearestMetaclassWithin_of_climbs hab] at hm
      exact ih hm
    · rw [nearestMetaclassWithin_of_not_climbs (not_exists.mp hclimbs)] at hm
      exact ⟨a, hm⟩

/-- The search depends on nothing but the kin of the records on its way. -/
theorem nearestMetaclass_congr
    (hkin : ∀ x, ReflTransGen (Climbs h) a x → h'.kin? x = h.kin? x) :
    nearestMetaclass h' a = nearestMetaclass h a := by
  have hwithin (depth : Nat) :
      nearestMetaclassWithin h' depth a = nearestMetaclassWithin h depth a := by
    induction depth generalizing a with
    | zero => rfl
    | succ depth ih =>
      have hself := hkin a .refl
      by_cases hclimbs : ∃ b, Climbs h a b
      · obtain ⟨b, hab⟩ := hclimbs
        rw [nearestMetaclassWithin_of_climbs hab,
          nearestMetaclassWithin_of_climbs (hab.congr hself)]
        exact ih fun x hx => hkin x (.head hab hx)
      · have hstop := not_exists.mp hclimbs
        rw [nearestMetaclassWithin_of_not_climbs hstop, nearestMetaclassWithin_of_not_climbs
          fun b hab => hstop b (hab.congr hself.symm), metaclass?, hself, ← metaclass?]
  have hdepth : h.size < h.size + h'.size + 1 := by omega
  have hdepth' : h'.size < h.size + h'.size + 1 := by omega
  rw [← getD_nearestMetaclassWithin hdepth, ← getD_nearestMetaclassWithin hdepth', hwithin]

end CoreClasses

end LateBinding
