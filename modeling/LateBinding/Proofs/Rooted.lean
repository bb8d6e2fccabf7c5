import LateBinding.Proofs.Bootstrap
import LateBinding.Proofs.Hierarchy.Kin

namespace LateBinding

variable {τ : Type}

namespace Hierarchy

variable {h h' : Hierarchy τ}

def flags? (h : Hierarchy τ) (id : ClassId) : Option ClassFlags := (h.kin? id).map Kin.flags

/-- The number is that of a class, perhaps of a singleton class, but not of a module. -/
def IsClass (h : Hierarchy τ) (id : ClassId) : Prop := ∃ f ∈ h.flags? id, f.isModule = false

instance (h : Hierarchy τ) (id : ClassId) : Decidable (h.IsClass id) :=
  inferInstanceAs (Decidable (∃ f ∈ h.flags? id, f.isModule = false))

theorem flags?_eq {id : ClassId} {k : Kin} (hk : h.kin? id = some k) :
    h.flags? id = some k.flags := by
  rw [flags?, hk, Option.map_some]

theorem isClass_of_kin? {id : ClassId} {k : Kin} (hk : h.kin? id = some k)
    (hmodule : k.flags.isModule = false) : h.IsClass id :=
  ⟨k.flags, flags?_eq hk, hmodule⟩

theorem IsClass.kin? {id : ClassId} (hid : h.IsClass id) :
    ∃ k, h.kin? id = some k ∧ k.flags.isModule = false := by
  obtain ⟨f, hf, hmodule⟩ := hid
  obtain ⟨k, hk, rfl⟩ := Option.map_eq_some_iff.mp hf
  exact ⟨k, hk, hmodule⟩

theorem IsClass.knows {id : ClassId} (hid : h.IsClass id) : h.Knows id := by
  obtain ⟨k, hk, -⟩ := hid.kin?
  exact .of_kin? hk

/-- Records stay what they are. -/
def KeepsFlags (h h' : Hierarchy τ) : Prop :=
  ∀ ⦃id f⦄, h.flags? id = some f → h'.flags? id = some f

theorem KeepsFlags.refl (h : Hierarchy τ) : h.KeepsFlags h := fun _ _ hf => hf

theorem KeepsFlags.trans {h'' : Hierarchy τ} (hfirst : h.KeepsFlags h')
    (hthen : h'.KeepsFlags h'') : h.KeepsFlags h'' :=
  fun _ _ hf => hthen (hfirst hf)

theorem KeepsFlags.isClass (hkeeps : h.KeepsFlags h') {id : ClassId} (hid : h.IsClass id) :
    h'.IsClass id := by
  obtain ⟨f, hf, hmodule⟩ := hid
  exact ⟨f, hkeeps hf, hmodule⟩

theorem KeepsFlags.knows (hkeeps : h.KeepsFlags h') {id : ClassId} (hid : h.Knows id) :
    h'.Knows id := by
  obtain ⟨k, hk⟩ := hid.kin?
  obtain ⟨k', hk', -⟩ := Option.map_eq_some_iff.mp (hkeeps (flags?_eq hk))
  exact .of_kin? hk'

theorem KeepsKin.keepsFlags (hkeeps : h.KeepsKin h') : h.KeepsFlags h' := by
  intro id f hf
  obtain ⟨k, hk, rfl⟩ := Option.map_eq_some_iff.mp hf
  obtain ⟨k', hk', hflags, -⟩ := hkeeps hk
  rw [flags?_eq hk', hflags]

theorem SameKin.keepsFlags (hsame : h.SameKin h') : h.KeepsFlags h' := by
  intro id f hf
  rwa [flags?, hsame.kin?_eq, ← flags?]

end Hierarchy

namespace CoreClasses

open Hierarchy

variable {core : CoreClasses} {h h' : Hierarchy τ}

/-- The core classes with what they are. The module Kernel is not among them. -/
def classes (core : CoreClasses) : List (ClassId × ClassFlags) :=
  ([core.basicObject, core.object, core.module, core.cls].map fun id => (id, default)) ++
  ([core.nilClass, core.trueClass, core.falseClass, core.integer, core.float, core.symbol,
    core.string].map fun id => (id, { isImmediate := true })) ++
  [(core.foreignObject, { isForeign := true })]

/-- Every class but the basic object has a class above it, and singleton classes are classes. -/
structure Rooted (core : CoreClasses) (h : Hierarchy τ) : Prop where
  flags : ∀ p ∈ core.classes, h.flags? p.1 = some p.2
  parent : ∀ {id}, h.IsClass id → id = core.basicObject ∨
    ∃ parent, h.superclass? id = some parent ∧ h.IsClass parent
  metaclass : ∀ {id m}, h.metaclass? id = some m → h.IsClass m
  singleton : ∀ {o s}, h.singletonOf? o = some s → h.IsClass s

theorem Rooted.isClass (hroot : core.Rooted h) {p : ClassId × ClassFlags} (hp : p ∈ core.classes) :
    h.IsClass p.1 := by
  refine ⟨p.2, hroot.flags p hp, ?_⟩
  simp only [classes, List.map_cons, List.map_nil, List.cons_append, List.nil_append,
    List.mem_cons, List.not_mem_nil, or_false] at hp
  rcases hp with rfl | rfl | rfl | rfl | rfl | rfl | rfl | rfl | rfl | rfl | rfl | rfl <;> rfl

theorem Rooted.reaches (hroot : core.Rooted h) (hh : h.Stratified) {id : ClassId}
    (hid : h.IsClass id) : h.Reaches id core.basicObject := by
  induction id using hh.induction with
  | _ id ih =>
    rcases hroot.parent hid with rfl | ⟨parent, hparent, hclass⟩
    · exact .refl
    · obtain ⟨k, hk, hsuper⟩ := Option.bind_eq_some_iff.mp hparent
      have hedge := edge_of_kin? hk hsuper
      exact .head hedge (ih parent hedge hclass)

/-- The basic object is among the ancestors of every class. -/
theorem Rooted.mem_ancestors (hroot : core.Rooted h) (hh : h.Sound) {id : ClassId}
    (hid : h.IsClass id) : core.basicObject ∈ (h.ancestors id).1 := by
  rw [hh.ancestors_fst]
  exact hh.mem_linearize_iff.mpr ⟨hid.knows, hroot.reaches hh.toStratified hid⟩

/-- What has to be seen to for classes to go on descending from the basic object: that every class
that is new or was moved is below a class, and that new singleton classes are classes. -/
theorem Rooted.of_keepsFlags (hroot : core.Rooted h) (hkeeps : h.KeepsFlags h')
    (hclass : ∀ {id k'}, h'.kin? id = some k' → k'.flags.isModule = false →
      (∃ k, h.kin? id = some k ∧ k.flags = k'.flags ∧ k.superclass = k'.superclass) ∨
        ∃ parent, k'.superclass = some parent ∧ h'.IsClass parent)
    (hmetaclass : ∀ {id k' m}, h'.kin? id = some k' → k'.metaclass = some m →
      h.metaclass? id = some m ∨ h'.IsClass m)
    (hsingleton : ∀ {o s}, h'.singletonOf? o = some s → h.singletonOf? o = some s ∨ h'.IsClass s) :
    core.Rooted h' where
  flags p hp := hkeeps (hroot.flags p hp)
  parent {id} hid := by
    obtain ⟨k', hk', hmodule⟩ := hid.kin?
    rcases hclass hk' hmodule with ⟨k, hk, hflags, hsuper⟩ | ⟨parent, hparent, habove⟩
    · rcases hroot.parent (isClass_of_kin? hk (hflags ▸ hmodule)) with
        hbasic | ⟨parent, hparent, habove⟩
      · exact .inl hbasic
      · refine .inr ⟨parent, ?_, hkeeps.isClass habove⟩
        rw [superclass?_eq hk', ← hsuper, ← superclass?_eq hk, hparent]
    · exact .inr ⟨parent, by rw [superclass?_eq hk', hparent], habove⟩
  metaclass {id m} hm := by
    obtain ⟨k', hk', hm'⟩ := Option.bind_eq_some_iff.mp hm
    rcases hmetaclass hk' hm' with hold | hnew
    · exact hkeeps.isClass (hroot.metaclass hold)
    · exact hnew
  singleton hs := (hsingleton hs).elim (fun hold => hkeeps.isClass (hroot.singleton hold)) id

theorem Rooted.of_sameKin (hroot : core.Rooted h) (hsame : h.SameKin h') : core.Rooted h' := by
  refine hroot.of_keepsFlags hsame.keepsFlags (fun {id k'} hk' _ => ?_) (fun {id k' m} hk' hm => ?_)
    fun {o s} hs => ?_
  · rw [hsame.kin?_eq] at hk'
    exact .inl ⟨k', hk', rfl, rfl⟩
  · rw [hsame.kin?_eq] at hk'
    exact .inl ((metaclass?_eq hk').trans hm)
  · rw [singletonOf?, hsame.objects_eq] at hs
    exact .inl hs

/-- A new record is a module, or it is below a class. -/
theorem Rooted.of_new (hroot : core.Rooted h) {flags : ClassFlags} {superclass : Option ClassId}
    (hkin : h'.kin? = Function.update h.kin? ⟨h.size⟩ (some ⟨flags, superclass, none⟩))
    (hplace : flags.isModule = true ∨ ∃ s ∈ superclass, h.IsClass s)
    (hobjects : ∀ {o s}, h'.singletonOf? o = some s →
      h.singletonOf? o = some s ∨ s = ⟨h.size⟩ ∧ flags.isModule = false) : core.Rooted h' := by
  have hkeeps := (keepsKin_of_new hkin).keepsFlags
  have hfresh : h'.kin? ⟨h.size⟩ = some ⟨flags, superclass, none⟩ := by
    rw [hkin, Function.update_self]
  refine hroot.of_keepsFlags hkeeps (fun {id k'} hk' hmodule => ?_) (fun {id k' m} hk' hm => ?_)
    fun {o s} hs => ?_
  · rcases kin?_cases hkin hk' with ⟨-, rfl⟩ | hold
    · rcases hplace with hflag | ⟨s, hs, hclass⟩
      · rw [hmodule] at hflag
        cases hflag
      · exact .inr ⟨s, hs, hkeeps.isClass hclass⟩
    · exact .inl ⟨k', hold, rfl, rfl⟩
  · rcases kin?_cases hkin hk' with ⟨-, rfl⟩ | hold
    · cases hm
    · exact .inl ((metaclass?_eq hold).trans hm)
  · rcases hobjects hs with hold | ⟨rfl, hmodule⟩
    · exact .inl hold
    · exact .inr (isClass_of_kin? hfresh hmodule)

theorem Rooted.attachToObject (hroot : core.Rooted h) {o : ObjectRef}
    (ho : h.IsClass o.declaredClass) (name : String) :
    core.Rooted (h.attachToObject o name).2 := by
  rcases h.attachToObject_cases o name with heq | ⟨hobjects, hkin⟩
  · rw [heq]
    exact hroot
  · refine hroot.of_new hkin (.inr ⟨o.declaredClass, rfl, ho⟩) fun {o' s} hs => ?_
    rw [singletonOf?, hobjects, Table.get?_insert] at hs
    split at hs
    · exact .inr ⟨(Option.some.inj hs).symm, rfl⟩
    · exact .inl hs

theorem Rooted.attachToModule (hroot : core.Rooted h) (module : ClassId) {superclass : ClassId}
    (hsuper : h.IsClass superclass) : core.Rooted (h.attachToModule module superclass).2 := by
  cases hmodule : h.kin? module with
  | none =>
    have hnone : h.get? module = none := Option.map_eq_none_iff.mp hmodule
    rw [Hierarchy.attachToModule, hnone]
    exact hroot
  | some k =>
    rcases attachToModule_cases hmodule superclass with ⟨m, -, heq⟩ | ⟨-, -, hobjects, hkin⟩
    · rw [heq]
      exact hroot
    have hkeeps := (h.keepsKin_attachToModule module superclass).keepsFlags
    obtain ⟨hfresh, hcases⟩ := kin?_attached hmodule hkin
    refine hroot.of_keepsFlags hkeeps (fun {id k'} hk' hflag => ?_) (fun {id k' m} hk' hm => ?_)
      fun {o s} hs => ?_
    · rcases hcases hk' with ⟨rfl, rfl⟩ | rfl | hold
      · exact .inl ⟨k, hmodule, rfl, rfl⟩
      · exact .inr ⟨superclass, rfl, hkeeps.isClass hsuper⟩
      · exact .inl ⟨k', hold, rfl, rfl⟩
    · rcases hcases hk' with ⟨rfl, rfl⟩ | rfl | hold
      · obtain rfl := Option.some.inj hm
        exact .inr (isClass_of_kin? hfresh rfl)
      · cases hm
      · exact .inl ((metaclass?_eq hold).trans hm)
    · rw [singletonOf?, hobjects] at hs
      exact .inl hs

theorem Rooted.setSuperclass (hroot : core.Rooted h) (hh : h.Sound) (cls superclass : ClassId) :
    core.Rooted (h.setSuperclass cls superclass).2 ∧
      h.KeepsFlags (h.setSuperclass cls superclass).2 := by
  rcases hh.kin_setSuperclass cls superclass with
    hsame | ⟨k, above, hk, hmodule, habove, hmodule', hobjects, hkin⟩
  · exact ⟨hroot.of_sameKin hsame, hsame.keepsFlags⟩
  have hmoved : (h.setSuperclass cls superclass).2.kin? cls =
      some { k with superclass := some superclass } := by
    rw [hkin, Function.update_self]
  have hother {id : ClassId} (hid : id ≠ cls) :
      (h.setSuperclass cls superclass).2.kin? id = h.kin? id := by
    rw [hkin, Function.update_of_ne hid]
  have hkeeps : h.KeepsFlags (h.setSuperclass cls superclass).2 := by
    intro id f hf
    by_cases hid : id = cls
    · subst hid
      rw [flags?_eq hmoved, ← flags?_eq hk, hf]
    · rw [flags?, hother hid, ← flags?, hf]
  refine ⟨hroot.of_keepsFlags hkeeps (fun {id k'} hk' hflag => ?_) (fun {id k' m} hk' hm => ?_)
    fun {o s} hs => ?_, hkeeps⟩
  · rcases kin?_cases hkin hk' with ⟨-, rfl⟩ | hold
    · exact .inr ⟨superclass, rfl, hkeeps.isClass (isClass_of_kin? habove hmodule')⟩
    · exact .inl ⟨k', hold, rfl, rfl⟩
  · rcases kin?_cases hkin hk' with ⟨rfl, rfl⟩ | hold
    · exact .inl ((metaclass?_eq hk).trans hm)
    · exact .inl ((metaclass?_eq hold).trans hm)
  · rw [singletonOf?, hobjects] at hs
    exact .inl hs

/-- In the hierarchy that every program begins with, every class descends from the basic object. -/
theorem rooted_bootstrap : (bootstrap (.empty : Hierarchy Target)).1.Rooted
    (bootstrap (.empty : Hierarchy Target)).2 := by
  have hflags : ∀ p ∈ (bootstrap (.empty : Hierarchy Target)).1.classes,
      (bootstrap (.empty : Hierarchy Target)).2.flags? p.1 = some p.2 := by decide +kernel
  have hparent : ∀ id ∈ (bootstrap (.empty : Hierarchy Target)).2.ids,
      (bootstrap (.empty : Hierarchy Target)).2.IsClass id →
        id = (bootstrap (.empty : Hierarchy Target)).1.basicObject ∨
          ∃ parent ∈ (bootstrap (.empty : Hierarchy Target)).2.superclass? id,
            (bootstrap (.empty : Hierarchy Target)).2.IsClass parent := by decide +kernel
  have hmetaclass : ∀ id ∈ (bootstrap (.empty : Hierarchy Target)).2.ids,
      (bootstrap (.empty : Hierarchy Target)).2.metaclass? id = none := by decide +kernel
  refine ⟨hflags, fun {id} hid => hparent id (mem_ids.mpr hid.knows) hid, fun {id m} hm => ?_,
    fun {o s} hs => ?_⟩
  · obtain ⟨k, hk, -⟩ := Option.bind_eq_some_iff.mp hm
    rw [hmetaclass id (mem_ids.mpr (.of_kin? hk))] at hm
    cases hm
  · cases hs

end CoreClasses

/-- The record that a request makes, if any, is a module, or it is below a class. -/
def Edit.StaysRooted (h : Hierarchy τ) : Edit τ → Prop
  | create _ superclass flags => flags.isModule = true ∨ ∃ s ∈ superclass, h.IsClass s
  | attachToObject o _ => h.IsClass o.declaredClass
  | attachToModule _ superclass => h.IsClass superclass
  | _ => True

instance (h : Hierarchy τ) : (e : Edit τ) → Decidable (e.StaysRooted h)
  | .create _ superclass flags =>
    inferInstanceAs (Decidable (flags.isModule = true ∨ ∃ s ∈ superclass, h.IsClass s))
  | .attachToObject o _ => inferInstanceAs (Decidable (h.IsClass o.declaredClass))
  | .attachToModule _ superclass => inferInstanceAs (Decidable (h.IsClass superclass))
  | .define .. | .remove .. | .undefine .. | .addAlias .. | .setVisibility .. | .addInclude ..
  | .setSuperclass .. | .ancestors _ | .isAncestor .. | .record _ => isTrue trivial

namespace CoreClasses

open Hierarchy

variable {core : CoreClasses} {h h' : Hierarchy τ}

theorem Rooted.apply (hroot : core.Rooted h) (hh : h.Sound) {e : Edit τ}
    (he : e.StaysRooted h) : core.Rooted (e.apply h).2 ∧ h.KeepsFlags (e.apply h).2 := by
  have hkept {h' : Hierarchy τ} (hsame : h.SameKin h') : core.Rooted h' ∧ h.KeepsFlags h' :=
    ⟨hroot.of_sameKin hsame, hsame.keepsFlags⟩
  cases e with
  | create name superclass flags =>
    have hkin := h.kin?_create name superclass flags
    exact ⟨hroot.of_new hkin he fun hs => .inl hs, (keepsKin_of_new hkin).keepsFlags⟩
  | attachToObject o name =>
    exact ⟨hroot.attachToObject he name, (keepsKin_attachToObject h o name).keepsFlags⟩
  | attachToModule module superclass =>
    exact ⟨hroot.attachToModule module he, (keepsKin_attachToModule h module superclass).keepsFlags⟩
  | define | remove | undefine | addAlias | setVisibility => exact hkept (hh.sameKin_table rfl)
  | addInclude target module => exact hkept (hh.sameKin_addInclude target module)
  | setSuperclass cls superclass => exact hroot.setSuperclass hh cls superclass
  | ancestors id => exact hkept (hh.recalls_ancestors id).sameKin
  | isAncestor descendant ancestor => exact hkept (hh.recalls_isAncestor descendant ancestor).sameKin
  | record id => exact hkept (.refl h)

/-- A singleton class is made below a class: a core class, or the singleton class of a class. -/
theorem Rooted.above (hroot : core.Rooted h) {id above : ClassId}
    (habove : core.Above h id above) : h.IsClass above := by
  obtain ⟨k, -, ⟨-, rfl⟩ | ⟨-, ⟨-, rfl⟩ | ⟨parent, up, -, hup, hmetaclass⟩⟩⟩ := habove
  · exact hroot.isClass (p := (core.module, default)) (by simp [classes])
  · exact hroot.isClass (p := (core.cls, default)) (by simp [classes])
  · exact hroot.metaclass ((metaclass?_eq hup).trans hmetaclass)

theorem Rooted.singletonClassOf (hroot : core.Rooted h) (hh : h.Sound) (hcore : core.KnownIn h)
    {v : Value} (hv : ∀ o, v = .object o → h.IsClass o.declaredClass) :
    core.Rooted (core.singletonClassOf h v).2 ∧ h.KeepsFlags (core.singletonClassOf h v).2 := by
  refine singletonClassOf_induction (P := fun h' => core.Rooted h' ∧ h.KeepsFlags h')
    (fun {h' id above} _ _ habove hkept => ?_) hh hcore (fun o name ho _ => ?_)
    ⟨hroot, .refl h⟩
  · obtain ⟨hroot', hkeeps⟩ := hkept
    exact ⟨hroot'.attachToModule id (hroot'.above habove),
      hkeeps.trans (keepsKin_attachToModule h' id above).keepsFlags⟩
  · exact ⟨hroot.attachToObject (hv o ho) name, (keepsKin_attachToObject h o name).keepsFlags⟩

theorem Rooted.nearestMetaclassWithin (hroot : core.Rooted h) {depth : Nat} {id m : ClassId}
    (hm : CoreClasses.nearestMetaclassWithin h depth id = some (some m)) : h.IsClass m := by
  induction depth generalizing id with
  | zero => cases hm
  | succ depth ih =>
    rw [CoreClasses.nearestMetaclassWithin] at hm
    split at hm
    · cases hm
    · rename_i r hr
      split at hm
      · rename_i hmetaclass
        obtain rfl := Option.some.inj (Option.some.inj hm)
        exact hroot.metaclass
          ((metaclass?_eq (kin?_eq_some_iff.mpr ⟨r, hr, rfl⟩)).trans hmetaclass)
      · cases hm
      · cases hm
      · exact ih hm

theorem Rooted.classOf (hroot : core.Rooted h) {v : Value}
    (hv : ∀ o, v = .object o → h.IsClass o.declaredClass) : h.IsClass (core.classOf h v) := by
  have hclass {id : ClassId} {f : ClassFlags} (hmem : (id, f) ∈ core.classes) : h.IsClass id :=
    hroot.isClass hmem
  cases v with
  | object o => exact hv o rfl
  | module id =>
    rw [CoreClasses.classOf]
    split
    · exact hclass (f := default) (by simp [classes])
    · exact hclass (f := default) (by simp [classes])
  | bool b =>
    cases b <;> exact hclass (f := { isImmediate := true }) (by simp [classes, CoreClasses.classOf])
  | foreign f => exact hclass (f := { isForeign := true }) (by simp [classes, CoreClasses.classOf])
  | _ => exact hclass (f := { isImmediate := true }) (by simp [classes, CoreClasses.classOf])

/-- Look-ups begin at classes. -/
theorem Rooted.effectiveClass (hroot : core.Rooted h) {v : Value}
    (hv : ∀ o, v = .object o → h.IsClass o.declaredClass) :
    h.IsClass (core.effectiveClass h v) := by
  have hclass := hroot.classOf hv
  cases v with
  | object o =>
    rw [CoreClasses.effectiveClass]
    cases hs : h.singletonOf? o with
    | none => exact hv o rfl
    | some s => exact hroot.singleton hs
  | module id =>
    rw [CoreClasses.effectiveClass, CoreClasses.nearestMetaclass]
    cases hm : CoreClasses.nearestMetaclassWithin h (h.size + 1) id with
    | none => exact hclass
    | some found =>
      cases found with
      | none => exact hclass
      | some m => exact hroot.nearestMetaclassWithin hm
  | _ => exact hclass

/-- A request for the singleton class of a value is refused for plain data only, unless it is about
a class or module that does not exist. -/
theorem Rooted.singletonClassOf_error (hroot : core.Rooted h) (hh : h.Sound)
    (hcore : core.KnownIn h) {v : Value} (hv : ∀ o, v = .object o → h.IsClass o.declaredClass)
    (hmodule : ∀ id, v = .module id → h.Knows id) {f : Fault}
    (hf : (core.singletonClassOf h v).1 = .error f) : f.isFatal = false := by
  have hknown := (hroot.classOf hv).knows
  obtain ⟨r, hr⟩ := hknown.get?
  have hforbids (flags : ClassFlags) (hmem : (core.classOf h v, flags) ∈ core.classes)
      (hflags : (flags.isImmediate || flags.isForeign) = true) : r.forbidsSingletons = true := by
    have hkept := hroot.flags _ hmem
    rw [flags?_eq (kin?_eq_some_iff.mpr ⟨r, hr, rfl⟩)] at hkept
    obtain rfl : r.kin.flags = flags := Option.some.inj hkept
    exact hflags
  rw [CoreClasses.singletonClassOf, hr] at hf
  simp only at hf
  split at hf
  · obtain rfl := Except.error.inj hf
    rfl
  · rename_i hallowed
    cases v with
    | object o => cases hf
    | module id =>
      obtain ⟨m, hm⟩ := metaclassOf_ok hh hcore (hmodule id rfl)
      simp only [hm] at hf
      cases hf
    | bool b =>
      refine absurd (hforbids { isImmediate := true } ?_ rfl) hallowed
      cases b <;> simp [classes, CoreClasses.classOf]
    | foreign f =>
      refine absurd (hforbids { isForeign := true } ?_ rfl) hallowed
      simp [classes, CoreClasses.classOf]
    | _ =>
      refine absurd (hforbids { isImmediate := true } ?_ rfl) hallowed
      simp [classes, CoreClasses.classOf]

end CoreClasses

end LateBinding
