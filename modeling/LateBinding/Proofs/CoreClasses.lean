import LateBinding.CoreClasses
import LateBinding.Proofs.Hierarchy.Edits

namespace LateBinding

variable {τ : Type} {h h' : Hierarchy τ} {core : CoreClasses}

namespace CoreClasses

/-- Every core class is a record. -/
def KnownIn (core : CoreClasses) (h : Hierarchy τ) : Prop := ∀ p ∈ core.named, h.Knows p.2

instance (core : CoreClasses) (h : Hierarchy τ) : Decidable (core.KnownIn h) :=
  inferInstanceAs (Decidable (∀ p ∈ core.named, h.Knows p.2))

theorem KnownIn.of_evolves (hcore : core.KnownIn h) (hev : h.Evolves h') : core.KnownIn h' :=
  fun p hp => hev.knows (hcore p hp)

theorem KnownIn.module (hcore : core.KnownIn h) : h.Knows core.module :=
  hcore ("Module", core.module) (by simp [named])

theorem KnownIn.cls (hcore : core.KnownIn h) : h.Knows core.cls :=
  hcore ("Class", core.cls) (by simp [named])

theorem classOf_of_forget_eq (hforget : h'.forget = h.forget) (v : Value) :
    core.classOf h' v = core.classOf h v := by
  cases v with
  | module id =>
    have hmodule := Hierarchy.map_get?_of_forget_eq (f := Record.isModule) (fun _ => rfl) hforget id
    have hany (h : Hierarchy τ) :
        (h.get? id).any Record.isModule = ((h.get? id).map Record.isModule).getD false := by
      cases h.get? id <;> rfl
    simp only [classOf, hany, hmodule]
  | _ => rfl

theorem nearestMetaclassWithin_forget (h : Hierarchy τ) (depth : Nat) (id : ClassId) :
    nearestMetaclassWithin h.forget depth id = nearestMetaclassWithin h depth id := by
  induction depth generalizing id with
  | zero => rfl
  | succ depth ih =>
    rw [nearestMetaclassWithin, nearestMetaclassWithin, Hierarchy.get?_forget]
    cases h.get? id with
    | none => rfl
    | some r => simp only [Option.map_some, Record.forget, Record.isModule, ih]

theorem nearestMetaclass_of_forget_eq (hforget : h'.forget = h.forget) (id : ClassId) :
    nearestMetaclass h' id = nearestMetaclass h id := by
  rw [nearestMetaclass, nearestMetaclass, ← nearestMetaclassWithin_forget h',
    ← nearestMetaclassWithin_forget h, hforget, Hierarchy.size_of_forget_eq hforget]

theorem effectiveClass_of_forget_eq (hforget : h'.forget = h.forget) (v : Value) :
    core.effectiveClass h' v = core.effectiveClass h v := by
  have hclass : core.classOf h' v = core.classOf h v := classOf_of_forget_eq hforget v
  cases v with
  | object o =>
    have hobjects := Hierarchy.objectSingletons_of_forget_eq hforget
    simp only [effectiveClass, Hierarchy.singletonOf?, hobjects]
  | module id => simp only [effectiveClass, nearestMetaclass_of_forget_eq hforget, hclass]
  | _ => exact hclass

theorem nameOf_of_forget_eq (hforget : h'.forget = h.forget) (id : ClassId) :
    h'.nameOf id = h.nameOf id := by
  have hname := Hierarchy.map_get?_of_forget_eq (f := Record.name) (fun _ => rfl) hforget id
  have hof (h : Hierarchy τ) : h.nameOf id =
      ((h.get? id).map Record.name).getD s!"#<Class:{id.index}>" := by
    rw [Hierarchy.nameOf]
    cases h.get? id <;> rfl
  rw [hof, hof, hname]

theorem describe_of_forget_eq (hforget : h'.forget = h.forget) (v : Value) :
    core.describe h' v = core.describe h v := by
  have hclass : core.classOf h' v = core.classOf h v := classOf_of_forget_eq hforget v
  have hname := nameOf_of_forget_eq hforget
  cases v <;> simp only [describe, hclass, hname]

theorem nearestMetaclassWithin_known (hh : h.Sound) {depth : Nat} {id m : ClassId}
    (hm : nearestMetaclassWithin h depth id = some (some m)) : h.Knows m := by
  induction depth generalizing id with
  | zero => cases hm
  | succ depth ih =>
    rw [nearestMetaclassWithin] at hm
    split at hm
    · cases hm
    · rename_i r hr
      split at hm
      · rename_i hmetaclass
        obtain rfl := Option.some.inj (Option.some.inj hm)
        exact hh.metaclass_known hr hmetaclass
      · cases hm
      · cases hm
      · exact ih hm

/-- A receiver whose class exists has a class from which look-ups begin. -/
theorem effectiveClass_known (hh : h.Sound) {v : Value} (hv : h.Knows (core.classOf h v)) :
    h.Knows (core.effectiveClass h v) := by
  cases v with
  | object o =>
    rw [effectiveClass]
    cases hs : h.singletonOf? o with
    | none => exact hv
    | some s => exact hh.singleton_known hs
  | module id =>
    rw [effectiveClass, nearestMetaclass]
    cases hm : nearestMetaclassWithin h (h.size + 1) id with
    | none => exact hv
    | some found =>
      cases found with
      | none => exact hv
      | some m => exact nearestMetaclassWithin_known hh hm
  | _ => exact hv

theorem attachToModule_known (hh : h.Sound) {module superclass m : ClassId}
    (hm : (h.attachToModule module superclass).1 = .ok m) :
    (h.attachToModule module superclass).2.Knows m := by
  rw [Hierarchy.attachToModule] at hm ⊢
  split at hm
  · cases hm
  · rename_i r hr
    split at hm
    · rename_i hmetaclass
      obtain rfl := Except.ok.inj hm
      exact hh.metaclass_known hr hmetaclass
    · rename_i hnone
      obtain rfl := Except.ok.inj hm
      have hknown := h.knows_create s!"#<Class:{r.name}>" (some superclass) { isSingleton := true }
      simpa only [hr, hnone, Hierarchy.Knows, Hierarchy.size_modify] using hknown

/-- Every singleton class on the way up is made below a class that exists: a core class, or the
singleton class that was made just before. -/
theorem metaclassWithin_spec (hh : h.Sound) (hcore : core.KnownIn h) {depth : Nat} {id : ClassId}
    {made : Except Fault ClassId}
    (hmade : core.metaclassWithin depth h id = some (made, h')) :
    h.Evolves h' ∧ ∀ m, made = .ok m → h'.Knows m := by
  induction depth generalizing h h' id made with
  | zero => cases hmade
  | succ depth ih =>
    have hattach {g g' : Hierarchy τ} {made : Except Fault ClassId} {above : ClassId}
        (hg : g.Sound) (habove : g.Knows above)
        (heq : g.attachToModule id above = (made, g')) :
        g.Evolves g' ∧ ∀ m, made = .ok m → g'.Knows m := by
      have hev := hg.evolves_attachToModule id fun _ => habove
      have hknown {m : ClassId} (hm : (g.attachToModule id above).1 = .ok m) :=
        attachToModule_known hg hm
      rw [heq] at hev hknown
      exact ⟨hev, fun m hm => hknown hm⟩
    rw [metaclassWithin] at hmade
    split at hmade
    · obtain ⟨rfl, rfl⟩ := Prod.mk.inj (Option.some.inj hmade)
      exact ⟨hh.evolves_refl, fun m hm => by cases hm⟩
    · rename_i r hr
      split at hmade
      · rename_i existing hmetaclass
        obtain ⟨rfl, rfl⟩ := Prod.mk.inj (Option.some.inj hmade)
        refine ⟨hh.evolves_refl, fun m hm => ?_⟩
        obtain rfl := Except.ok.inj hm
        exact hh.metaclass_known hr hmetaclass
      · split at hmade
        · exact hattach hh hcore.module (Option.some.inj hmade)
        · split at hmade
          · exact hattach hh hcore.cls (Option.some.inj hmade)
          · rename_i parent hparent
            obtain ⟨⟨above, h₁⟩, hup, hrest⟩ := Option.bind_eq_some_iff.mp hmade
            obtain ⟨hev, hknown⟩ := ih hh hcore hup
            cases above with
            | error fault =>
              obtain ⟨rfl, rfl⟩ := Prod.mk.inj (Option.some.inj hrest)
              exact ⟨hev, fun m hm => by cases hm⟩
            | ok above =>
              obtain ⟨hlast, hmade⟩ := hattach hev.sound (hknown above rfl) (Option.some.inj hrest)
              exact ⟨hev.trans hlast, hmade⟩

theorem evolves_singletonClassOf (hh : h.Sound) (hcore : core.KnownIn h) (v : Value) :
    h.Evolves (core.singletonClassOf h v).2 := by
  rw [singletonClassOf]
  split
  · exact hh.evolves_refl
  · rename_i r hr
    split
    · exact hh.evolves_refl
    · split
      · rename_i o
        exact hh.evolves_attachToObject o _ fun _ => .of_get? hr
      · rename_i id
        rw [metaclassOf]
        cases hmade : core.metaclassWithin (h.size + 1) h id with
        | none => exact hh.evolves_refl
        | some made => exact (metaclassWithin_spec hh hcore hmade).1
      · exact hh.evolves_refl

end CoreClasses

end LateBinding
