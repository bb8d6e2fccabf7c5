import LateBinding.Proofs.Hierarchy.Kin

namespace LateBinding

variable {τ : Type}

namespace Hierarchy

variable {h h' h'' : Hierarchy τ}

/-- The second hierarchy has the graph of the first one, and the stamps of all records that do not have
a given one among their ancestors. -/
structure SameBeside (owner : ClassId) (h h' : Hierarchy τ) : Prop where
  kin : h.SameKin h'
  linearize_eq : ∀ id, h'.linearize id = h.linearize id
  stamp_eq : ∀ {id}, h.Knows id → owner ∉ h.linearize id → h'.stampOf? id = h.stampOf? id

theorem SameBeside.trans {owner : ClassId} (hfirst : SameBeside owner h h')
    (hthen : SameBeside owner h' h'') : SameBeside owner h h'' where
  kin := hfirst.kin.trans hthen.kin
  linearize_eq id := (hthen.linearize_eq id).trans (hfirst.linearize_eq id)
  stamp_eq {id} hid hnot := by
    obtain ⟨k, hk⟩ := hid.kin?
    rw [← hfirst.kin.kin?_eq] at hk
    rw [← hfirst.stamp_eq hid hnot]
    exact hthen.stamp_eq (.of_kin? hk) (by rwa [hfirst.linearize_eq])

theorem Recalls.sameBeside (hrec : h.Recalls h') (hh : h.Sound) (owner : ClassId) :
    SameBeside owner h h' where
  kin := hrec.sameKin
  linearize_eq := hrec.linearize_eq hh.toStratified
  stamp_eq {id} _ _ := stampOf?_of_forget_eq hrec.forget_eq id

theorem Sound.sameBeside_publishTable (hh : h.Sound) (owner : ClassId)
    (f : Table Symbol (Method τ) → Table Symbol (Method τ)) :
    SameBeside owner h ((h.modifyMethods owner f).publishTable owner (h.generation + 1)) := by
  have hpublishes := hh.publishes_publishTable owner f
  refine ⟨hh.sameKin_publish owner (Nat.le_succ _) f, hpublishes.linearize_eq, fun hid hnot => ?_⟩
  rw [hpublishes.stamp_eq hid, if_neg hnot]

/-- A request about a method table, granted or refused, is not noticed beside it. -/
theorem Sound.sameBeside_apply (hh : h.Sound) {e : Edit τ} {owner : ClassId}
    (he : e.table? = some owner) : SameBeside owner h (e.apply h).2 := by
  obtain ⟨h₁, hrec, heq | ⟨f, heq⟩⟩ := hh.table_cases he
  · rw [heq]
    exact hrec.sameBeside hh owner
  · rw [heq]
    exact (hrec.sameBeside hh owner).trans (hrec.sound.sameBeside_publishTable owner f)

theorem SameKin.size_eq (hkin : h.SameKin h') : h'.size = h.size := by
  have hle {a b : Hierarchy τ} (hab : a.kin? = b.kin?) : a.size ≤ b.size := by
    by_contra hnot
    obtain ⟨k, hk⟩ := (show a.Knows ⟨b.size⟩ from Nat.lt_of_not_le hnot).kin?
    rw [hab, kin?_size] at hk
    cases hk
  exact Nat.le_antisymm (hle hkin.kin?_eq) (hle hkin.kin?_eq.symm)

end Hierarchy

namespace CoreClasses

open Hierarchy

variable {core : CoreClasses} {h h' : Hierarchy τ}

theorem classOf_of_sameKin (hkin : h.SameKin h') (v : Value) : core.classOf h' v = core.classOf h v := by
  cases v with
  | module id =>
    have hany (h : Hierarchy τ) :
        (h.get? id).any Record.isModule = (h.kin? id).any fun k => k.flags.isModule := by
      rw [kin?]
      cases h.get? id <;> rfl
    simp only [classOf, hany, hkin.kin?_eq]
  | _ => rfl

theorem nearestMetaclassWithin_of_sameKin (hkin : h.SameKin h') (depth : Nat) (id : ClassId) :
    nearestMetaclassWithin h' depth id = nearestMetaclassWithin h depth id := by
  induction depth generalizing id with
  | zero => rfl
  | succ depth ih =>
    have hsame := congrFun hkin.kin?_eq id
    rw [nearestMetaclassWithin, nearestMetaclassWithin]
    simp only [kin?] at hsame
    cases hr : h.get? id with
    | none =>
      rw [hr, Option.map_none, Option.map_eq_none_iff] at hsame
      rw [hsame]
    | some r =>
      rw [hr, Option.map_some, Option.map_eq_some_iff] at hsame
      obtain ⟨r', hr', hk⟩ := hsame
      simp only [Record.kin, Kin.mk.injEq] at hk
      simp only [hr', Record.isModule, hk, ih]

/-- Where look-ups for a receiver begin is a matter of kin. -/
theorem effectiveClass_of_sameKin (hkin : h.SameKin h') (v : Value) :
    core.effectiveClass h' v = core.effectiveClass h v := by
  have hclass : core.classOf h' v = core.classOf h v := classOf_of_sameKin hkin v
  cases v with
  | object o => simp only [effectiveClass, singletonOf?, hkin.objects_eq]
  | module id =>
    simp only [effectiveClass, nearestMetaclass, nearestMetaclassWithin_of_sameKin hkin,
      hkin.size_eq, hclass]
  | _ => exact hclass

end CoreClasses

end LateBinding
