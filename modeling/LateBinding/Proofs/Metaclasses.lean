import LateBinding.Proofs.Bootstrap
import LateBinding.Proofs.Hierarchy.Kin

namespace LateBinding

open Relation

variable {τ : Type}

/-- The operation makes singleton classes only where they belong, and moves no class that has one
or is one. -/
def Operation.SparesMetaclasses (h : Hierarchy τ) : Operation τ → Prop
  | .edit (.create _ superclass flags) => flags.isModule = true → superclass = none
  | .edit (.attachToModule _ _) => False
  | .edit (.setSuperclass cls _) =>
    ∀ k ∈ h.kin? cls, k.flags.isSingleton = false ∧ k.metaclass = none
  | _ => True

instance (h : Hierarchy τ) : (op : Operation τ) → Decidable (op.SparesMetaclasses h)
  | .edit (.create _ superclass flags) =>
    inferInstanceAs (Decidable (flags.isModule = true → superclass = none))
  | .edit (.attachToModule _ _) => isFalse id
  | .edit (.setSuperclass cls _) =>
    inferInstanceAs (Decidable (∀ k ∈ h.kin? cls, k.flags.isSingleton = false ∧ k.metaclass = none))
  | .edit (.attachToObject ..) | .edit (.define ..) | .edit (.remove ..) | .edit (.undefine ..)
  | .edit (.addAlias ..) | .edit (.setVisibility ..) | .edit (.addInclude ..)
  | .edit (.ancestors _) | .edit (.isAncestor ..) | .edit (.record _)
  | .singletonClassOf .. | .walk .. | .walkCached .. | .effectiveClass .. | .describe .. | .look =>
    isTrue trivial

namespace Hierarchy

variable {h h' : Hierarchy τ}

/-- The singleton classes are below one another as the classes are that they belong to. -/
structure Mirrors (h : Hierarchy τ) : Prop where
  module_top : ∀ {id k}, h.kin? id = some k → k.flags.isModule = true → k.superclass = none
  metaclass_singleton : ∀ {id k m}, h.kin? id = some k → k.metaclass = some m →
    ∃ km, h.kin? m = some km ∧ km.flags.isSingleton = true
  mirrored : ∀ {id k m parent}, h.kin? id = some k → k.metaclass = some m →
    k.superclass = some parent → ∃ above, h.metaclass? parent = some above ∧
      h.superclass? m = some above

theorem KeepsKin.superclass? (hkeeps : h.KeepsKin h') {id s : ClassId}
    (hs : h.superclass? id = some s) : h'.superclass? id = some s := by
  obtain ⟨k, hk, hsuper⟩ := Option.bind_eq_some_iff.mp hs
  obtain ⟨k', hk', -, heq, -⟩ := hkeeps hk
  rw [superclass?_eq hk', heq, hsuper]

theorem KeepsKin.metaclass? (hkeeps : h.KeepsKin h') {id m : ClassId}
    (hm : h.metaclass? id = some m) : h'.metaclass? id = some m := by
  obtain ⟨k, hk, hmetaclass⟩ := Option.bind_eq_some_iff.mp hm
  obtain ⟨k', hk', -, -, hkept⟩ := hkeeps hk
  rw [metaclass?_eq hk', hkept m hmetaclass]

theorem Mirrors.of_sameKin (hmir : h.Mirrors) (hsame : h.SameKin h') : h'.Mirrors := by
  have hkin := hsame.kin?_eq
  have hsuper : h'.superclass? = h.superclass? := by
    funext id
    rw [Hierarchy.superclass?, hkin, ← Hierarchy.superclass?]
  have hmetaclass : h'.metaclass? = h.metaclass? := by
    funext id
    rw [Hierarchy.metaclass?, hkin, ← Hierarchy.metaclass?]
  refine ⟨?_, ?_, ?_⟩
  · rw [hkin]
    exact hmir.module_top
  · rw [hkin]
    exact hmir.metaclass_singleton
  · rw [hkin, hsuper, hmetaclass]
    exact hmir.mirrored

theorem Mirrors.of_new (hmir : h.Mirrors) {flags : ClassFlags} {superclass : Option ClassId}
    (hkin : h'.kin? = Function.update h.kin? ⟨h.size⟩ (some ⟨flags, superclass, none⟩))
    (hmodule : flags.isModule = true → superclass = none) : h'.Mirrors := by
  have hkeeps := keepsKin_of_new hkin
  refine ⟨fun {id k} hk hflag => ?_, fun {id k m} hk hm => ?_, fun {id k m parent} hk hm hs => ?_⟩
  · rcases kin?_cases hkin hk with ⟨-, rfl⟩ | hold
    · exact hmodule hflag
    · exact hmir.module_top hold hflag
  · rcases kin?_cases hkin hk with ⟨-, rfl⟩ | hold
    · cases hm
    · obtain ⟨km, hkm, hsingleton⟩ := hmir.metaclass_singleton hold hm
      obtain ⟨km', hkm', hflags, -⟩ := hkeeps hkm
      exact ⟨km', hkm', by rw [hflags, hsingleton]⟩
  · rcases kin?_cases hkin hk with ⟨-, rfl⟩ | hold
    · cases hm
    · obtain ⟨above, hup, hbelow⟩ := hmir.mirrored hold hm hs
      exact ⟨above, hkeeps.metaclass? hup, hkeeps.superclass? hbelow⟩

/-- A singleton class that is made where it belongs has the singleton class of the superclass above
it, which is there already. -/
theorem Mirrors.attachToModule (hmir : h.Mirrors) {core : CoreClasses} {id above : ClassId}
    (habove : core.Above h id above) : (h.attachToModule id above).2.Mirrors := by
  obtain ⟨k, hk, hplace⟩ := habove
  have hkeeps := h.keepsKin_attachToModule id above
  rcases attachToModule_cases hk above with ⟨m, -, heq⟩ | ⟨hnone, -, -, hkin⟩
  · rw [heq]
    exact hmir
  obtain ⟨hfresh, hcases⟩ := kin?_attached hk hkin
  refine ⟨fun {x kx} hx hflag => ?_, fun {x kx m} hx hm => ?_, fun {x kx m parent} hx hm hs => ?_⟩
  · rcases hcases hx with ⟨rfl, rfl⟩ | rfl | hold
    · have htop := hmir.module_top hk hflag
      exact htop
    · cases hflag
    · exact hmir.module_top hold hflag
  · rcases hcases hx with ⟨rfl, rfl⟩ | rfl | hold
    · obtain rfl := Option.some.inj hm
      exact ⟨_, hfresh, rfl⟩
    · cases hm
    · obtain ⟨km, hkm, hsingleton⟩ := hmir.metaclass_singleton hold hm
      obtain ⟨km', hkm', hflags, -⟩ := hkeeps hkm
      exact ⟨km', hkm', by rw [hflags, hsingleton]⟩
  · rcases hcases hx with ⟨rfl, rfl⟩ | rfl | hold
    · obtain rfl := Option.some.inj hm
      have hs : k.superclass = some parent := hs
      obtain ⟨hmodule, -⟩ | ⟨-, ⟨htop, -⟩ | ⟨parent', up, hparent, hup, hmetaclass⟩⟩ := hplace
      · rw [hmir.module_top hk hmodule] at hs
        cases hs
      · rw [htop] at hs
        cases hs
      · obtain rfl : parent' = parent := Option.some.inj (hparent.symm.trans hs)
        refine ⟨above, hkeeps.metaclass? ?_, superclass?_eq hfresh⟩
        rw [metaclass?_eq hup, hmetaclass]
    · cases hm
    · obtain ⟨above', hup, hbelow⟩ := hmir.mirrored hold hm hs
      exact ⟨above', hkeeps.metaclass? hup, hkeeps.superclass? hbelow⟩

/-- Moving a class disturbs no singleton class, if the class has none and is none. -/
theorem Mirrors.of_move (hmir : h.Mirrors) {cls superclass : ClassId} {k : Kin}
    (hk : h.kin? cls = some k) (hmodule : k.flags.isModule = false)
    (hsingleton : k.flags.isSingleton = false) (hnone : k.metaclass = none)
    (hkin : h'.kin? = Function.update h.kin? cls (some { k with superclass := some superclass })) :
    h'.Mirrors := by
  have hother {x : ClassId} {kx : Kin} (hne : x ≠ cls) (hx : h.kin? x = some kx) :
      h'.kin? x = some kx := by
    rw [hkin, Function.update_of_ne hne, hx]
  -- The class that is moved is not a singleton class, so those that are keep their places.
  have hspared {x m : ClassId} {kx : Kin} (hx : h.kin? x = some kx) (hm : kx.metaclass = some m) :
      m ≠ cls := by
    rintro rfl
    obtain ⟨km, hkm, hflag⟩ := hmir.metaclass_singleton hx hm
    obtain rfl : k = km := Option.some.inj (hk.symm.trans hkm)
    rw [hsingleton] at hflag
    cases hflag
  refine ⟨fun {x kx} hx hflag => ?_, fun {x kx m} hx hm => ?_, fun {x kx m parent} hx hm hs => ?_⟩
  · rcases kin?_cases hkin hx with ⟨-, rfl⟩ | hold
    · rw [hmodule] at hflag
      cases hflag
    · exact hmir.module_top hold hflag
  · rcases kin?_cases hkin hx with ⟨-, rfl⟩ | hold
    · rw [hnone] at hm
      cases hm
    · obtain ⟨km, hkm, hflag⟩ := hmir.metaclass_singleton hold hm
      exact ⟨km, hother (hspared hold hm) hkm, hflag⟩
  · rcases kin?_cases hkin hx with ⟨-, rfl⟩ | hold
    · rw [hnone] at hm
      cases hm
    · obtain ⟨above, hup, hbelow⟩ := hmir.mirrored hold hm hs
      obtain ⟨up, hparent, hmetaclass⟩ := Option.bind_eq_some_iff.mp hup
      obtain ⟨km, hkm, hsuper⟩ := Option.bind_eq_some_iff.mp hbelow
      have hne : parent ≠ cls := by
        rintro rfl
        obtain rfl : k = up := Option.some.inj (hk.symm.trans hparent)
        rw [hnone] at hmetaclass
        cases hmetaclass
      refine ⟨above, ?_, ?_⟩
      · rw [metaclass?_eq (hother hne hparent), hmetaclass]
      · rw [superclass?_eq (hother (hspared hold hm) hkm), hsuper]

theorem Sound.mirrors_operation (hh : h.Sound) (hmir : h.Mirrors) {op : Operation τ}
    (hop : op.NamesKnownClasses h) (hspares : op.SparesMetaclasses h) :
    (op.apply h).2.Mirrors := by
  have hobject (o : ObjectRef) (name : String) : (h.attachToObject o name).2.Mirrors := by
    rcases h.attachToObject_cases o name with heq | ⟨-, hkin⟩
    · rw [heq]
      exact hmir
    · exact hmir.of_new hkin fun hmodule => by cases hmodule
  cases op with
  | edit e =>
    cases e with
    | create name superclass flags => exact hmir.of_new (h.kin?_create name superclass flags) hspares
    | attachToObject o name => exact hobject o name
    | attachToModule module superclass => exact hspares.elim
    | define | remove | undefine | addAlias | setVisibility =>
      exact hmir.of_sameKin (hh.sameKin_table rfl)
    | addInclude target module => exact hmir.of_sameKin (hh.sameKin_addInclude target module)
    | setSuperclass cls superclass =>
      rcases hh.kin_setSuperclass cls superclass with hsame | ⟨k, -, hk, hmodule, -, -, -, hkin⟩
      · exact hmir.of_sameKin hsame
      · obtain ⟨hsingleton, hnone⟩ := hspares k hk
        exact hmir.of_move hk hmodule hsingleton hnone hkin
    | ancestors id => exact hmir.of_sameKin (hh.recalls_ancestors id).sameKin
    | isAncestor descendant ancestor =>
      exact hmir.of_sameKin (hh.recalls_isAncestor descendant ancestor).sameKin
    | record id => exact hmir
  | singletonClassOf core v =>
    exact CoreClasses.singletonClassOf_induction (P := Mirrors)
      (fun _ _ habove hmir => hmir.attachToModule habove) hh hop
      (fun o name _ _ => hobject o name) hmir
  | walk id name =>
    simp only [Operation.apply, hh.walk_eq]
    exact hmir.of_sameKin (hh.recalls_ancestors id).sameKin
  | walkCached cache id name =>
    exact hmir.of_sameKin (hh.recalls_walkCached cache id name).sameKin
  | _ => exact hmir

theorem Mirrors.after (hmir : h.Mirrors) (hh : h.Sound) {ops : List (Operation τ)}
    (hops : h.Supports ops) (hspares : h.Throughout (fun op h => op.SparesMetaclasses h) ops) :
    (h.after ops).Mirrors := by
  induction ops generalizing h with
  | nil => exact hmir
  | cons op ops ih =>
    obtain ⟨hop, hrest⟩ := hops
    obtain ⟨hspared, hsparing⟩ := hspares
    exact ih (hh.mirrors_operation hmir hop hspared) (hh.evolves_operation hop).sound hrest hsparing

theorem nearestMetaclass_eq_metaclass {id m : ClassId} {k : Kin} (hk : h.kin? id = some k)
    (hm : k.metaclass = some m) : CoreClasses.nearestMetaclass h id = some m := by
  obtain ⟨r, hr, rfl⟩ := kin?_eq_some_iff.mp hk
  have hm : r.metaclass = some m := hm
  rw [CoreClasses.nearestMetaclass, CoreClasses.nearestMetaclassWithin, hr]
  simp only [hm, Option.getD_some]

theorem Stratified.nearestMetaclass_eq_parent (hh : h.Stratified) {id parent : ClassId} {k : Kin}
    (hk : h.kin? id = some k) (hnone : k.metaclass = none) (hmodule : k.flags.isModule = false)
    (hparent : k.superclass = some parent) :
    CoreClasses.nearestMetaclass h id = CoreClasses.nearestMetaclass h parent := by
  obtain ⟨r, hr, rfl⟩ := kin?_eq_some_iff.mp hk
  have hnone : r.metaclass = none := hnone
  have hmodule : r.isModule = false := hmodule
  have hparent : r.superclass = some parent := hparent
  have hdeep := hh.nearestMetaclassWithin_eq id (show h.size < h.size + 2 by omega)
  rw [CoreClasses.nearestMetaclassWithin, hr] at hdeep
  simp only [hnone, hmodule, hparent] at hdeep
  rw [hh.nearestMetaclassWithin_eq parent (Nat.lt_succ_self _)] at hdeep
  exact (Option.some.inj hdeep).symm

/-- The look-up begins at a singleton class from which those of all classes above are reached. The
induction is on the way up: the next class has the singleton class that the first one's is below,
or it is where the search for a singleton class goes on. -/
theorem Mirrors.reaches_metaclass (hmir : h.Mirrors) (hh : h.Stratified) {b a m : ClassId}
    (hpath : ReflTransGen (fun x y => h.superclass? x = some y) b a)
    (hm : h.metaclass? a = some m) :
    ∃ first, CoreClasses.nearestMetaclass h b = some first ∧ h.Reaches first m := by
  induction hpath using ReflTransGen.head_induction_on with
  | refl =>
    obtain ⟨k, hk, hmetaclass⟩ := Option.bind_eq_some_iff.mp hm
    exact ⟨m, nearestMetaclass_eq_metaclass hk hmetaclass, .refl⟩
  | head hstep _ ih =>
    rename_i x y
    obtain ⟨first, hfirst, hreach⟩ := ih
    obtain ⟨k, hk, hparent⟩ := Option.bind_eq_some_iff.mp hstep
    cases hmetaclass : k.metaclass with
    | some own =>
      obtain ⟨above, hup, hbelow⟩ := hmir.mirrored hk hmetaclass hparent
      obtain ⟨up, hky, habove⟩ := Option.bind_eq_some_iff.mp hup
      obtain ⟨kown, hkown, hsuper⟩ := Option.bind_eq_some_iff.mp hbelow
      obtain rfl : above = first := by
        rw [nearestMetaclass_eq_metaclass hky habove] at hfirst
        exact Option.some.inj hfirst
      exact ⟨own, nearestMetaclass_eq_metaclass hk hmetaclass,
        .head (edge_of_kin? hkown hsuper) hreach⟩
    | none =>
      have hmodule : k.flags.isModule = false := by
        by_contra hflag
        rw [hmir.module_top hk (eq_true_of_ne_false hflag)] at hparent
        cases hparent
      exact ⟨first, by rw [hh.nearestMetaclass_eq_parent hk hmetaclass hmodule hparent, hfirst],
        hreach⟩

/-- A walk comes to the entry of an ancestor that no ancestor before it overrides. -/
theorem Sound.walk_of_ancestors (hh : h.Sound) {id a : ClassId} {pre post : List ClassId}
    {name : Symbol} {m : Method τ} (hlist : (h.ancestors id).1 = pre ++ a :: post)
    (hm : h.own? a name = some m) (hfree : ∀ x ∈ pre, h.own? x name = none) :
    (h.walk id name).1 = .ofFirst (some m) := by
  rw [hh.walk_eq_of_ancestors hlist hfree, hm, Option.some_or]

theorem mirrors_bootstrap : (CoreClasses.bootstrap (empty : Hierarchy Target)).2.Mirrors := by
  have hstart : (empty : Hierarchy Target).Mirrors := by
    have hnone (id : ClassId) : (empty : Hierarchy Target).kin? id = none := rfl
    refine ⟨fun {id k} hk => ?_, fun {id k m} hk => ?_, fun {id k m parent} hk => ?_⟩ <;>
      rw [hnone] at hk <;> cases hk
  have hops : (empty : Hierarchy Target).Supports (CoreClasses.requests.map .edit) := by
    decide +kernel
  have hspares : (empty : Hierarchy Target).Throughout (fun op h => op.SparesMetaclasses h)
      (CoreClasses.requests.map .edit) := by
    decide +kernel
  rw [CoreClasses.bootstrap_eq_run, ← after_map_edit]
  exact hstart.after sound_empty hops hspares

/-- As long as no class is moved that has its singleton class already, or is a singleton class, the
methods of the classes above a class as a value are found from it: their singleton classes are among
the ancestors from which its look-ups begin, and its own singleton class descends from them. -/
theorem metaclass_mem_ancestors_after (core : CoreClasses) {ops : List (Operation Target)}
    (hops : (CoreClasses.bootstrap (empty : Hierarchy Target)).2.Supports ops)
    (hspares : (CoreClasses.bootstrap (empty : Hierarchy Target)).2.Throughout
      (fun op h => op.SparesMetaclasses h) ops) :
    let h := (CoreClasses.bootstrap (empty : Hierarchy Target)).2.after ops
    ∀ b a m, ReflTransGen (fun x y => h.superclass? x = some y) b a → h.metaclass? a = some m →
      m ∈ (h.ancestors (core.effectiveClass h (.module b))).1 ∧
      (∀ pre post name entry,
        (h.ancestors (core.effectiveClass h (.module b))).1 = pre ++ m :: post →
        h.own? m name = some entry → (∀ x ∈ pre, h.own? x name = none) →
          (h.walk (core.effectiveClass h (.module b)) name).1 = .ofFirst (some entry)) ∧
      ∀ own, h.metaclass? b = some own → (h.isAncestor own m).1 = true := by
  intro h b a m hpath hm
  have hh : h.Sound := CoreClasses.sound_bootstrap.after hops
  have hmir : h.Mirrors := mirrors_bootstrap.after CoreClasses.sound_bootstrap hops hspares
  -- Singleton classes are on a path of their own, beside that of the classes.
  obtain ⟨first, hfirst, hreach⟩ := hmir.reaches_metaclass hh.toStratified hpath hm
  have hbegin : core.effectiveClass h (.module b) = first := by
    rw [CoreClasses.effectiveClass, hfirst, Option.getD_some]
  have hfound := hh.nearestMetaclassWithin_eq b (Nat.lt_succ_self h.size)
  rw [hfirst] at hfound
  have hknown : h.Knows first := CoreClasses.nearestMetaclassWithin_known hh hfound
  rw [hbegin]
  refine ⟨?_, fun pre post name entry hlist hentry hfree => ?_, fun own hown => ?_⟩
  · rw [hh.ancestors_fst]
    exact hh.mem_linearize_iff.mpr ⟨hknown, hreach⟩
  · exact hh.walk_of_ancestors hlist hentry hfree
  · obtain ⟨k, hk, hmetaclass⟩ := Option.bind_eq_some_iff.mp hown
    rw [nearestMetaclass_eq_metaclass hk hmetaclass] at hfirst
    obtain rfl := Option.some.inj hfirst
    exact hh.isAncestor_iff.mpr ⟨hknown, hreach⟩

/-- A class that is moved before it has a singleton class inherits from that of its new superclass,
whether its own is made later or never. -/
theorem metaclass_mem_ancestors_after_early_move :
    let core := (CoreClasses.bootstrap (empty : Hierarchy Target)).1
    let ops : List (Operation Target) :=
      [.edit (.create "A" (some core.object) {}), .edit (.create "B" (some ⟨13⟩) {}),
        .edit (.create "C" (some core.object) {}), .singletonClassOf core (.module ⟨15⟩),
        .edit (.setSuperclass ⟨14⟩ ⟨15⟩), .singletonClassOf core (.module ⟨14⟩)]
    let h := (CoreClasses.bootstrap (empty : Hierarchy Target)).2.after ops
    h.metaclass? ⟨15⟩ = some ⟨18⟩ ∧ h.metaclass? ⟨14⟩ = some ⟨19⟩ ∧
      ⟨18⟩ ∈ (h.ancestors (core.effectiveClass h (.module ⟨14⟩))).1 ∧
        (h.isAncestor ⟨19⟩ ⟨18⟩).1 = true := by
  intro core ops h
  have hops : (CoreClasses.bootstrap (empty : Hierarchy Target)).2.Supports ops := by
    decide +kernel
  have hspares : (CoreClasses.bootstrap (empty : Hierarchy Target)).2.Throughout
      (fun op h => op.SparesMetaclasses h) ops := by
    decide +kernel
  have hstep : h.superclass? ⟨14⟩ = some ⟨15⟩ := by decide +kernel
  have habove : h.metaclass? ⟨15⟩ = some ⟨18⟩ := by decide +kernel
  have hown : h.metaclass? ⟨14⟩ = some ⟨19⟩ := by decide +kernel
  obtain ⟨hmem, -, hbelow⟩ :=
    metaclass_mem_ancestors_after core hops hspares ⟨14⟩ ⟨15⟩ ⟨18⟩ (.single hstep) habove
  exact ⟨habove, hown, hmem, hbelow ⟨19⟩ hown⟩

/-- A class that is moved after it was given a singleton class does not inherit from that of its new
superclass. -/
theorem metaclass_left_behind :
    let core := (CoreClasses.bootstrap (empty : Hierarchy Target)).1
    let ops : List (Operation Target) :=
      [.edit (.create "A" (some core.object) {}), .edit (.create "B" (some ⟨13⟩) {}),
        .edit (.create "C" (some core.object) {}), .singletonClassOf core (.module ⟨14⟩),
        .singletonClassOf core (.module ⟨15⟩), .edit (.setSuperclass ⟨14⟩ ⟨15⟩)]
    let h := (CoreClasses.bootstrap (empty : Hierarchy Target)).2.after ops
    h.superclass? ⟨14⟩ = some ⟨15⟩ ∧ h.metaclass? ⟨15⟩ = some ⟨20⟩ ∧
      ⟨20⟩ ∉ (h.ancestors (core.effectiveClass h (.module ⟨14⟩))).1 := by
  decide +kernel

end Hierarchy

end LateBinding
