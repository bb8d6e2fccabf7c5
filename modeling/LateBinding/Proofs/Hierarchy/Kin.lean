import LateBinding.Proofs.Hierarchy.Depth

namespace LateBinding

variable {τ : Type}

/-- What a record is, which record it is below, and which is its singleton class. -/
structure Kin where
  flags : ClassFlags
  superclass : Option ClassId
  metaclass : Option ClassId

def Record.kin (r : Record τ) : Kin := ⟨r.flags, r.superclass, r.metaclass⟩

namespace Hierarchy

def kin? (h : Hierarchy τ) (id : ClassId) : Option Kin := (h.get? id).map Record.kin

def superclass? (h : Hierarchy τ) (id : ClassId) : Option ClassId :=
  (h.kin? id).bind Kin.superclass

/-- The singleton class of a class or module, if it has been made. -/
def metaclass? (h : Hierarchy τ) (id : ClassId) : Option ClassId :=
  (h.kin? id).bind Kin.metaclass

variable {h h' : Hierarchy τ}

theorem kin?_eq_some_iff {id : ClassId} {k : Kin} :
    h.kin? id = some k ↔ ∃ r, h.get? id = some r ∧ r.kin = k :=
  Option.map_eq_some_iff

theorem Knows.of_kin? {id : ClassId} {k : Kin} (hk : h.kin? id = some k) : h.Knows id := by
  obtain ⟨r, hr, -⟩ := kin?_eq_some_iff.mp hk
  exact .of_get? hr

theorem Knows.kin? {id : ClassId} (hid : h.Knows id) : ∃ k, h.kin? id = some k := by
  obtain ⟨r, hr⟩ := hid.get?
  exact ⟨r.kin, kin?_eq_some_iff.mpr ⟨r, hr, rfl⟩⟩

theorem superclass?_eq {id : ClassId} {k : Kin} (hk : h.kin? id = some k) :
    h.superclass? id = k.superclass := by
  rw [superclass?, hk, Option.bind_some]

theorem metaclass?_eq {id : ClassId} {k : Kin} (hk : h.kin? id = some k) :
    h.metaclass? id = k.metaclass := by
  rw [metaclass?, hk, Option.bind_some]

theorem edge_of_kin? {id parent : ClassId} {k : Kin} (hk : h.kin? id = some k)
    (hparent : k.superclass = some parent) : h.Edge id parent := by
  obtain ⟨r, hr, rfl⟩ := kin?_eq_some_iff.mp hk
  exact edge_of_superclass hr hparent

/-- No record has other kin than before, and no object another singleton class. -/
structure SameKin (h h' : Hierarchy τ) : Prop where
  kin?_eq : h'.kin? = h.kin?
  objects_eq : h'.objectSingletons = h.objectSingletons

theorem SameKin.refl (h : Hierarchy τ) : h.SameKin h := ⟨rfl, rfl⟩

theorem SameKin.trans {h'' : Hierarchy τ} (hfirst : h.SameKin h') (hthen : h'.SameKin h'') :
    h.SameKin h'' where
  kin?_eq := hthen.kin?_eq.trans hfirst.kin?_eq
  objects_eq := hthen.objects_eq.trans hfirst.objects_eq

theorem sameKin_of_forget_eq (hforget : h'.forget = h.forget) : h.SameKin h' where
  kin?_eq := by
    funext id
    exact map_get?_of_forget_eq (fun _ => rfl) hforget id
  objects_eq := objectSingletons_of_forget_eq hforget

theorem Recalls.sameKin (hrec : h.Recalls h') : h.SameKin h' := sameKin_of_forget_eq hrec.forget_eq

theorem Sound.sameKin_publish (hh : h.Sound) (owner : ClassId) {generation : Nat}
    (hle : h.generation ≤ generation)
    (f : Table Symbol (Method τ) → Table Symbol (Method τ)) :
    h.SameKin ((h.modifyMethods owner f).publishTable owner generation) where
  kin?_eq := by
    funext id
    exact hh.map_get?_publish (fun _ _ _ _ => rfl) owner f hle id
  objects_eq := by
    have hstamps := (hh.sound_modifyMethods owner f).restamps_publishTable hle owner
    have hobjects := objectSingletons_of_forget_eq hstamps.forget_eq
    exact hobjects

/-- A request about a method table touches no kin. -/
theorem Sound.sameKin_table (hh : h.Sound) {e : Edit τ} {owner : ClassId}
    (he : e.table? = some owner) : h.SameKin (e.apply h).2 := by
  obtain ⟨h₁, hrec, heq | ⟨f, heq⟩⟩ := hh.table_cases he
  · rw [heq]
    exact hrec.sameKin
  · rw [heq]
    exact hrec.sameKin.trans (hrec.sound.sameKin_publish owner (Nat.le_succ _) f)

theorem sameKin_regraph {f : Record τ → Record τ} (hf : ∀ r, (f r).kin = r.kin)
    (h : Hierarchy τ) (t : ClassId) : h.SameKin (h.regraph t f) where
  kin?_eq := by
    funext id
    exact map_get?_regraph hf (fun _ _ => rfl) t id
  objects_eq := rfl

theorem Sound.sameKin_addInclude (hh : h.Sound) (target module : ClassId) :
    h.SameKin (h.addInclude target module).2 := by
  rcases hh.addInclude_cases target module with hrec | ⟨h₁, hrec, -, -, heq⟩
  · exact hrec.sameKin
  · rw [heq]
    refine hrec.sameKin.trans (sameKin_regraph ?_ h₁ target)
    intro r
    rfl

/-- A class is moved below another class, or nothing happens to any kin. -/
theorem Sound.kin_setSuperclass (hh : h.Sound) (cls superclass : ClassId) :
    h.SameKin (h.setSuperclass cls superclass).2 ∨
      ∃ k above, h.kin? cls = some k ∧ k.flags.isModule = false ∧
        h.kin? superclass = some above ∧ above.flags.isModule = false ∧
          (h.setSuperclass cls superclass).2.objectSingletons = h.objectSingletons ∧
            (h.setSuperclass cls superclass).2.kin? =
              Function.update h.kin? cls (some { k with superclass := some superclass }) := by
  rcases hh.setSuperclass_cases cls superclass with
    hrec | ⟨h₁, r, s, hrec, hr, hmodule, hs, hmodule', -, heq⟩
  · exact .inl hrec.sameKin
  have hsame := hrec.sameKin
  refine .inr ⟨r.kin, s.kin, kin?_eq_some_iff.mpr ⟨r, hr, rfl⟩, hmodule,
    kin?_eq_some_iff.mpr ⟨s, hs, rfl⟩, hmodule', ?_, ?_⟩
  · rw [heq]
    exact hsame.objects_eq
  funext id
  have hold : h₁.kin? id = h.kin? id := congrFun hsame.kin?_eq id
  rw [heq, kin?, get?_regraph, Function.update_apply, Option.map_map]
  by_cases hid : id = cls
  · have hcls : h₁.kin? id = some r.kin := by
      rw [hold, hid]
      exact kin?_eq_some_iff.mpr ⟨r, hr, rfl⟩
    obtain ⟨r₁, hr₁, hkin⟩ := kin?_eq_some_iff.mp hcls
    rw [if_pos hid, hr₁, ← hkin]
    simp [hid, Record.kin]
  · rw [if_neg hid, ← hold, kin?]
    simp only [if_neg (Ne.symm hid)]
    rfl

theorem kin?_create (h : Hierarchy τ) (name : String) (superclass : Option ClassId)
    (flags : ClassFlags) : (h.create name superclass flags).2.kin? =
      Function.update h.kin? ⟨h.size⟩ (some ⟨flags, superclass, none⟩) := by
  funext id
  rw [kin?, get?_create, Function.update_apply]
  split <;> rfl

theorem kin?_size (h : Hierarchy τ) : h.kin? ⟨h.size⟩ = none := by
  rw [kin?, get?_eq_none_iff.mpr h.not_knows_size]
  rfl

theorem ne_size_of_kin? {id : ClassId} {k : Kin} (hk : h.kin? id = some k) : id ≠ ⟨h.size⟩ := by
  rintro rfl
  rw [kin?_size] at hk
  cases hk

/-- If one record is new or got other kin, the others have the kin that they had. -/
theorem kin?_cases {id x : ClassId} {k₀ k : Kin}
    (hkin : h'.kin? = Function.update h.kin? id (some k₀)) (hk : h'.kin? x = some k) :
    x = id ∧ k = k₀ ∨ h.kin? x = some k := by
  rw [hkin, Function.update_apply] at hk
  split at hk
  · rename_i hid
    exact .inl ⟨hid, (Option.some.inj hk).symm⟩
  · exact .inr hk

/-- An object has a singleton class already, or one is made below its class. -/
theorem attachToObject_cases (h : Hierarchy τ) (o : ObjectRef) (name : String) :
    (h.attachToObject o name).2 = h ∨
      (h.attachToObject o name).2.objectSingletons = h.objectSingletons.insert o ⟨h.size⟩ ∧
        (h.attachToObject o name).2.kin? = Function.update h.kin? ⟨h.size⟩
          (some ⟨{ isSingleton := true }, some o.declaredClass, none⟩) := by
  rw [attachToObject]
  split
  · exact .inl rfl
  · exact .inr ⟨rfl, h.kin?_create name (some o.declaredClass) { isSingleton := true }⟩

/-- A record has a singleton class already, or one is made and noted. -/
theorem attachToModule_cases {module : ClassId} {k : Kin} (hk : h.kin? module = some k)
    (superclass : ClassId) :
    (∃ m, k.metaclass = some m ∧ h.attachToModule module superclass = (.ok m, h)) ∨
      k.metaclass = none ∧ (h.attachToModule module superclass).1 = .ok ⟨h.size⟩ ∧
        (h.attachToModule module superclass).2.objectSingletons = h.objectSingletons ∧
        (h.attachToModule module superclass).2.kin? =
          Function.update (Function.update h.kin? ⟨h.size⟩
            (some ⟨{ isSingleton := true }, some superclass, none⟩)) module
              (some { k with metaclass := some ⟨h.size⟩ }) := by
  obtain ⟨r, hr, rfl⟩ := kin?_eq_some_iff.mp hk
  have hne := ne_size_of_kin? hk
  rw [attachToModule, hr]
  cases hm : r.metaclass with
  | some m => exact .inl ⟨m, hm, by simp only [hm]⟩
  | none =>
    simp only [hm]
    refine .inr ⟨hm, rfl, rfl, ?_⟩
    have hcreated :=
      h.kin?_create s!"#<Class:{r.name}>" (some superclass) { isSingleton := true }
    funext id
    rw [kin?, get?_modify, Function.update_apply]
    by_cases hid : id = module
    · subst hid
      rw [if_pos rfl, if_pos rfl, get?_create, if_neg hne, hr]
      rfl
    · rw [if_neg (Ne.symm hid), if_neg hid, ← hcreated]
      rfl

theorem kin?_of_update_size {k' : Option Kin} {id : ClassId} {k : Kin} (hk : h.kin? id = some k) :
    Function.update h.kin? ⟨h.size⟩ k' id = some k := by
  rw [Function.update_of_ne (ne_size_of_kin? hk), hk]

/-- The singleton class of a record is new, the record is noted as having it, and the others have the
kin that they had. -/
theorem kin?_attached {module superclass : ClassId} {k : Kin} (hk : h.kin? module = some k)
    (hkin : h'.kin? = Function.update (Function.update h.kin? ⟨h.size⟩
      (some ⟨{ isSingleton := true }, some superclass, none⟩)) module
        (some { k with metaclass := some ⟨h.size⟩ })) :
    h'.kin? ⟨h.size⟩ = some ⟨{ isSingleton := true }, some superclass, none⟩ ∧
      ∀ {x kx}, h'.kin? x = some kx → x = module ∧ kx = { k with metaclass := some ⟨h.size⟩ } ∨
        kx = ⟨{ isSingleton := true }, some superclass, none⟩ ∨ h.kin? x = some kx := by
  constructor
  · rw [hkin, Function.update_of_ne (ne_size_of_kin? hk).symm, Function.update_self]
  · intro x kx hx
    rw [hkin, Function.update_apply] at hx
    split at hx
    · rename_i hmodule
      exact .inl ⟨hmodule, (Option.some.inj hx).symm⟩
    · rw [Function.update_apply] at hx
      split at hx
      · exact .inr (.inl (Option.some.inj hx).symm)
      · exact .inr (.inr hx)

/-- Records keep what they are, what they are below and the singleton classes that they have. -/
def KeepsKin (h h' : Hierarchy τ) : Prop :=
  ∀ ⦃id k⦄, h.kin? id = some k → ∃ k', h'.kin? id = some k' ∧ k'.flags = k.flags ∧
    k'.superclass = k.superclass ∧ ∀ m, k.metaclass = some m → k'.metaclass = some m

theorem KeepsKin.refl (h : Hierarchy τ) : h.KeepsKin h :=
  fun _ k hk => ⟨k, hk, rfl, rfl, fun _ hm => hm⟩

theorem KeepsKin.trans {h'' : Hierarchy τ} (hfirst : h.KeepsKin h') (hthen : h'.KeepsKin h'') :
    h.KeepsKin h'' := by
  intro id k hk
  obtain ⟨k', hk', hflags, hsuper, hmetaclass⟩ := hfirst hk
  obtain ⟨k'', hk'', hflags', hsuper', hmetaclass'⟩ := hthen hk'
  exact ⟨k'', hk'', hflags'.trans hflags, hsuper'.trans hsuper,
    fun m hm => hmetaclass' m (hmetaclass m hm)⟩

theorem keepsKin_of_new {k : Option Kin}
    (hkin : h'.kin? = Function.update h.kin? ⟨h.size⟩ k) : h.KeepsKin h' := by
  intro x kx hx
  exact ⟨kx, by rw [hkin, kin?_of_update_size hx], rfl, rfl, fun _ hm => hm⟩

theorem keepsKin_attachToObject (h : Hierarchy τ) (o : ObjectRef) (name : String) :
    h.KeepsKin (h.attachToObject o name).2 := by
  rcases h.attachToObject_cases o name with heq | ⟨-, hkin⟩
  · rw [heq]
    exact .refl h
  · exact keepsKin_of_new hkin

theorem keepsKin_attachToModule (h : Hierarchy τ) (module superclass : ClassId) :
    h.KeepsKin (h.attachToModule module superclass).2 := by
  cases hk : h.kin? module with
  | none =>
    have hnone : h.get? module = none := Option.map_eq_none_iff.mp hk
    rw [attachToModule, hnone]
    exact .refl h
  | some k =>
    rcases attachToModule_cases hk superclass with ⟨m, -, heq⟩ | ⟨hnone, -, -, hkin⟩
    · rw [heq]
      exact .refl h
    intro x kx hx
    rw [hkin, Function.update_apply]
    split
    · rename_i hid
      subst hid
      obtain rfl : k = kx := Option.some.inj (hk.symm.trans hx)
      refine ⟨_, rfl, rfl, rfl, fun m hm => ?_⟩
      rw [hnone] at hm
      cases hm
    · exact ⟨kx, kin?_of_update_size hx, rfl, rfl, fun _ hm => hm⟩

/-- After the request, a record that exists has the singleton class that was answered. -/
theorem metaclass_attachToModule {module : ClassId} {k : Kin} (hk : h.kin? module = some k)
    (superclass : ClassId) :
    ∃ m k', (h.attachToModule module superclass).1 = .ok m ∧
      (h.attachToModule module superclass).2.kin? module = some k' ∧ k'.metaclass = some m := by
  rcases attachToModule_cases hk superclass with ⟨m, hm, heq⟩ | ⟨-, hmade, -, hkin⟩
  · exact ⟨m, k, by rw [heq], by rw [heq]; exact hk, hm⟩
  · exact ⟨⟨h.size⟩, _, hmade, by rw [hkin, Function.update_self], rfl⟩

end Hierarchy

namespace CoreClasses

variable {core : CoreClasses} {h h' : Hierarchy τ}

/-- The record below which the singleton class of another one is made. -/
def Above (core : CoreClasses) (h : Hierarchy τ) (id above : ClassId) : Prop :=
  ∃ k, h.kin? id = some k ∧
    (k.flags.isModule = true ∧ above = core.module ∨
      k.flags.isModule = false ∧
        (k.superclass = none ∧ above = core.cls ∨
          ∃ parent up, k.superclass = some parent ∧ h.kin? parent = some up ∧
            up.metaclass = some above))

/-- A property of hierarchies that lasts when a record gets its singleton class, made where it
belongs, lasts when a record gets its singleton class together with those above it. -/
theorem metaclassWithin_induction {P : Hierarchy τ → Prop}
    (hattach : ∀ {h : Hierarchy τ} {id above : ClassId}, h.Sound → core.KnownIn h →
      core.Above h id above → P h → P (h.attachToModule id above).2)
    (hh : h.Sound) (hcore : core.KnownIn h) (hP : P h) {depth : Nat} {id : ClassId} {k : Kin}
    (hk : h.kin? id = some k) {made : Except Fault ClassId}
    (hmade : core.metaclassWithin depth h id = some (made, h')) :
    P h' ∧ h.KeepsKin h' ∧
      ∃ m k', made = .ok m ∧ h'.kin? id = some k' ∧ k'.metaclass = some m := by
  induction depth generalizing h h' id k made with
  | zero => cases hmade
  | succ depth ih =>
    -- Whatever the superclasses have left, the last thing that is done is to attach one record.
    have hlast {g : Hierarchy τ} {above : ClassId} {kg : Kin} (hg : g.Sound)
        (hgcore : core.KnownIn g) (hgP : P g) (hkg : g.kin? id = some kg)
        (habove : core.Above g id above)
        (heq : some (g.attachToModule id above) = some (made, h')) :
        P h' ∧ g.KeepsKin h' ∧
          ∃ m k', made = .ok m ∧ h'.kin? id = some k' ∧ k'.metaclass = some m := by
      have hkept := hattach hg hgcore habove hgP
      have hgrown := g.keepsKin_attachToModule id above
      have hnoted := Hierarchy.metaclass_attachToModule hkg above
      rw [Option.some.inj heq] at hkept hgrown hnoted
      exact ⟨hkept, hgrown, hnoted⟩
    obtain ⟨r, hr, rfl⟩ := Hierarchy.kin?_eq_some_iff.mp hk
    rw [metaclassWithin, hr] at hmade
    cases hmetaclass : r.metaclass with
    | some m =>
      simp only [hmetaclass, Option.some.injEq, Prod.mk.injEq] at hmade
      obtain ⟨rfl, rfl⟩ := hmade
      exact ⟨hP, .refl h, m, r.kin, rfl, hk, hmetaclass⟩
    | none =>
      simp only [hmetaclass] at hmade
      split at hmade
      · rename_i hmodule
        exact hlast hh hcore hP hk ⟨r.kin, hk, .inl ⟨hmodule, rfl⟩⟩ hmade
      · rename_i hmodule
        have hcls : r.kin.flags.isModule = false := eq_false_of_ne_true hmodule
        cases hsuper : r.superclass with
        | none =>
          simp only [hsuper] at hmade
          exact hlast hh hcore hP hk ⟨r.kin, hk, .inr ⟨hcls, .inl ⟨hsuper, rfl⟩⟩⟩ hmade
        | some parent =>
          simp only [hsuper] at hmade
          obtain ⟨⟨outcome, h₁⟩, hup, hrest⟩ := Option.bind_eq_some_iff.mp hmade
          obtain ⟨kp, hkp⟩ := (hh.closed (Hierarchy.edge_of_superclass hr hsuper)).kin?
          obtain ⟨hP₁, hgrown, above, up, rfl, hparent, habove⟩ := ih hh hcore hP hkp hup
          have hev := (metaclassWithin_spec hh hcore hup).1
          obtain ⟨k₁, hk₁, hflags, hsuper₁, -⟩ := hgrown hk
          have hplace : core.Above h₁ id above := by
            refine ⟨k₁, hk₁, .inr ⟨by rw [hflags, hcls], .inr ⟨parent, up, ?_, hparent, habove⟩⟩⟩
            rw [hsuper₁]
            exact hsuper
          obtain ⟨hP', hgrown', hnoted⟩ :=
            hlast hev.sound (hcore.of_evolves hev) hP₁ hk₁ hplace hrest
          exact ⟨hP', hgrown.trans hgrown', hnoted⟩

/-- A class or module that exists is given its singleton class. -/
theorem metaclassOf_ok (hh : h.Sound) (hcore : core.KnownIn h) {id : ClassId} (hid : h.Knows id) :
    ∃ m, (core.metaclassOf h id).1 = .ok m := by
  obtain ⟨k, hk⟩ := hid.kin?
  have hmade := hh.metaclassWithin_eq core id (Nat.lt_succ_self h.size)
  obtain ⟨-, -, m, -, hm, -⟩ :=
    metaclassWithin_induction (P := fun _ => True) (fun _ _ _ _ => trivial) hh hcore trivial hk hmade
  exact ⟨m, hm⟩

/-- A property of hierarchies that lasts when a record or an object gets its singleton class lasts
when a singleton class is asked for. -/
theorem singletonClassOf_induction {P : Hierarchy τ → Prop}
    (hattach : ∀ {h : Hierarchy τ} {id above : ClassId}, h.Sound → core.KnownIn h →
      core.Above h id above → P h → P (h.attachToModule id above).2)
    (hh : h.Sound) (hcore : core.KnownIn h) {v : Value}
    (hobject : ∀ o name, v = .object o → h.Knows o.declaredClass → P (h.attachToObject o name).2)
    (hP : P h) : P (core.singletonClassOf h v).2 := by
  rw [singletonClassOf]
  split
  · exact hP
  · rename_i r hr
    split
    · exact hP
    · split
      · rename_i o
        exact hobject o _ rfl (.of_get? hr)
      · rename_i id
        by_cases hid : h.Knows id
        · obtain ⟨k, hk⟩ := hid.kin?
          have hmade := hh.metaclassWithin_eq core id (Nat.lt_succ_self h.size)
          exact (metaclassWithin_induction hattach hh hcore hP hk hmade).1
        · rw [metaclassOf, metaclassWithin, Hierarchy.get?_eq_none_iff.mpr hid]
          exact hP
      · exact hP

end CoreClasses

end LateBinding
