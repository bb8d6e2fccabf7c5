import LateBinding.Proofs.NearestMetaclass
import LateBinding.Proofs.SingletonClasses

namespace LateBinding

open Relation

variable {τ : Type}

namespace Hierarchy

variable {h h' h'' : Hierarchy τ} {v : Value} {above id : ClassId}

/-- What the records build on exists, and so do the singleton classes. -/
structure Closed (h : Hierarchy τ) : Prop where
  edge : ∀ {a b}, h.Edge a b → h.Knows b
  attached : ∀ {v s}, h.attached? v = some s → h.Knows s

/-- One hierarchy comes from another by making a singleton class for a value, below a given class. -/
structure Attached (v : Value) (above : ClassId) (h h' : Hierarchy τ) : Prop where
  none_before : h.attached? v = none
  generation_eq : h'.generation = h.generation
  epoch_eq : h'.epoch = h.epoch
  size_eq : h'.size = h.size + 1
  old : ∀ {x r}, h.get? x = some r → ∃ m, h'.get? x = some { r with metaclass := m }
  new : ∃ name, h'.get? ⟨h.size⟩ =
    some (.new name { isSingleton := true } (some above) h.generation)
  attached_iff : ∀ {x s}, h'.attached? x = some s ↔ h.attached? x = some s ∨ x = v ∧ s = ⟨h.size⟩

theorem attached_attachToObject {o : ObjectRef} (hnone : h.singletonOf? o = none) (name : String) :
    Attached (.object o) o.declaredClass h (h.attachToObject o name).2 := by
  have heq : (h.attachToObject o name).2 =
      { (h.create name (some o.declaredClass) { isSingleton := true }).2 with
        objectSingletons := h.objectSingletons.insert o ⟨h.size⟩ } := by
    rw [attachToObject, hnone]
    rfl
  refine ⟨hnone, ?_, ?_, ?_, fun {x r} hr => ⟨r.metaclass, ?_⟩, ⟨name, ?_⟩,
    attached?_attachToObject hnone name⟩
  · rw [heq]
    rfl
  · rw [heq]
    rfl
  · rw [heq]
    exact h.size_create name (some o.declaredClass) { isSingleton := true }
  · rw [heq]
    exact (get?_create_of_knows name (some o.declaredClass) _ (.of_get? hr)).trans hr
  · rw [heq]
    exact (h.get?_create name (some o.declaredClass) _ ⟨h.size⟩).trans (if_pos rfl)

theorem attached_attachToModule {r : Record τ} (hr : h.get? id = some r)
    (hnone : r.metaclass = none) (above : ClassId) :
    Attached (.module id) above h (h.attachToModule id above).2 := by
  have hk : h.kin? id = some r.kin := kin?_eq_some_iff.mpr ⟨r, hr, rfl⟩
  have hne := ne_size_of_kin? hk
  have heq : (h.attachToModule id above).2 =
      (h.create s!"#<Class:{r.name}>" (some above) { isSingleton := true }).2.modify id
        fun r => { r with metaclass := some ⟨h.size⟩ } := by
    simp only [attachToModule, hr, hnone]
    rfl
  refine ⟨?_, ?_, ?_, ?_, fun {x rx} hx => ?_, ⟨s!"#<Class:{r.name}>", ?_⟩,
    attached?_attachToModule hk hnone above⟩
  · rw [attached?, metaclass?_eq hk]
    exact hnone
  · rw [heq]
    rfl
  · rw [heq]
    rfl
  · rw [heq, size_modify, size_create]
  · rw [heq, get?_modify, get?_create_of_knows _ _ _ (.of_get? hx), hx]
    split
    · exact ⟨_, rfl⟩
    · exact ⟨_, rfl⟩
  · rw [heq, get?_modify, if_neg hne, get?_create, if_pos rfl]

namespace Attached

theorem knows_new (hatt : Attached v above h h') : h'.Knows ⟨h.size⟩ := by
  rw [Knows, hatt.size_eq]
  exact Nat.lt_succ_self _

theorem knows_iff (hatt : Attached v above h h') {x : ClassId} :
    h'.Knows x ↔ h.Knows x ∨ x = ⟨h.size⟩ := by
  obtain ⟨i⟩ := x
  simp only [Knows, hatt.size_eq, ClassId.mk.injEq]
  omega

theorem map_get?_eq {α : Type} {f : Record τ → α} (hf : ∀ r metaclass, f { r with metaclass } = f r)
    (hatt : Attached v above h h') {x : ClassId} (hx : h.Knows x) :
    (h'.get? x).map f = (h.get? x).map f := by
  obtain ⟨r, hr⟩ := hx.get?
  obtain ⟨m, hr'⟩ := hatt.old hr
  rw [hr, hr', Option.map_some, Option.map_some, hf]

/-- A record keeps its kin, unless it is the one that gets its singleton class. -/
theorem kin?_eq (hatt : Attached v above h h') {x : ClassId} (hx : h.Knows x)
    (hne : v ≠ .module x) : h'.kin? x = h.kin? x := by
  obtain ⟨r, hr⟩ := hx.get?
  obtain ⟨m, hr'⟩ := hatt.old hr
  have hm : h'.metaclass? x = m := by
    rw [metaclass?_eq_join, hr']
    rfl
  have hm₀ : h.metaclass? x = r.metaclass := by
    rw [metaclass?_eq_join, hr]
    rfl
  have hsame : h'.metaclass? x = h.metaclass? x := by
    refine Option.ext fun s => ?_
    have hiff : h'.metaclass? x = some s ↔
        h.metaclass? x = some s ∨ Value.module x = v ∧ s = ⟨h.size⟩ :=
      hatt.attached_iff (x := .module x)
    simp [hiff, hne.symm]
  obtain rfl : m = r.metaclass := by rw [← hm, hsame, hm₀]
  rw [kin?, kin?, hr, hr']

theorem own?_eq (hatt : Attached v above h h') (x : ClassId) (name : Symbol) :
    h'.own? x name = h.own? x name := by
  by_cases hx : h.Knows x
  · exact own?_of_map_eq name (hatt.map_get?_eq (fun _ _ => rfl) hx)
  · rw [own?, own?, get?_eq_none_iff.mpr hx]
    by_cases hnew : x = ⟨h.size⟩
    · obtain ⟨name', hrec⟩ := hatt.new
      rw [hnew, hrec]
      rfl
    · rw [get?_eq_none_iff.mpr fun hknown => (hatt.knows_iff.mp hknown).elim hx hnew]

/-- A record that was there lists what it listed. -/
theorem lists_iff (hatt : Attached v above h h') (hclosed : h.Closed) {x : ClassId}
    (hx : h'.Knows x → h.Knows x) {list : List ClassId} :
    h'.Lists x list ↔ h.Lists x list := by
  by_cases hknown : h.Knows x
  · have hshape (a : ClassId) (ha : h.Knows a) : h'.shape? a = h.shape? a :=
      hatt.map_get?_eq (fun _ _ => rfl) ha
    have hrecalled (a : ClassId) (ha : h.Knows a) : h'.recalled? a = h.recalled? a := by
      obtain ⟨r, hr⟩ := ha.get?
      obtain ⟨m, hr'⟩ := hatt.old hr
      rw [recalled?_of_get? hr, recalled?_of_get? hr', hatt.epoch_eq]
      rfl
    constructor
    · intro hlist
      refine hlist.congr hknown (fun a ha => (hshape a ha).symm) (fun a ha => (hrecalled a ha).symm)
        fun a b ha _ hab => ?_
      exact hclosed.edge ((edge_congr (hshape a ha)).mp hab)
    · intro hlist
      exact hlist.congr hknown hshape hrecalled fun a b _ _ hab => hclosed.edge hab
  · have hnone := get?_eq_none_iff.mpr hknown
    have hnone' := get?_eq_none_iff.mpr (mt hx hknown)
    constructor
    · intro hlist
      rw [hlist.unique (.unknown hnone')]
      exact .unknown hnone
    · intro hlist
      rw [hlist.unique (.unknown hnone)]
      exact .unknown hnone'

/-- The singleton class lists itself and what the class above lists. -/
theorem lists_new_iff (hatt : Attached v above h h') {list : List ClassId} :
    h'.Lists ⟨h.size⟩ list ↔ ∃ behind, h'.Lists above behind ∧ list = ⟨h.size⟩ :: behind := by
  obtain ⟨name, hr⟩ := hatt.new
  have hexpand (g : ClassId → List ClassId) :
      expand g ⟨h.size⟩ (Record.new name { isSingleton := true } (some above) h.generation : Record τ) =
        ⟨h.size⟩ :: g above := rfl
  have hnone : h'.recalled? ⟨h.size⟩ = none := by
    rw [recalled?_of_get? hr]
    rfl
  constructor
  · intro hlist
    cases hlist with
    | unknown hid =>
      rw [hr] at hid
      cases hid
    | recalled hrec =>
      rw [hnone] at hrec
      cases hrec
    | @computed _ r g hr' _ hg =>
      obtain rfl := Option.some.inj (hr.symm.trans hr')
      exact ⟨g above, hg above (by simp [Record.links, Record.new]), hexpand g⟩
  · rintro ⟨behind, hbehind, rfl⟩
    have hcomputed : h'.Lists ⟨h.size⟩
        (expand (fun _ => behind) ⟨h.size⟩
          (Record.new name { isSingleton := true } (some above) h.generation : Record τ)) :=
      .computed hr hnone fun b hb => by
        obtain rfl : b = above := by simpa [Record.links, Record.new] using hb
        exact hbehind
    rwa [hexpand] at hcomputed

/-- A walk from a record that was there comes to what it came to. -/
theorem walk_eq (hatt : Attached v above h h') (hclosed : h.Closed) {x : ClassId}
    (hx : h'.Knows x → h.Knows x) (name : Symbol) : (h'.walk x name).1 = (h.walk x name).1 := by
  rw [walk_fst, walk_fst, ancestors_fst_congr fun list => hatt.lists_iff hclosed hx,
    firstOwn?_congr fun a _ => hatt.own?_eq a name]

/-- A walk from the singleton class passes by it. -/
theorem walk_new (hatt : Attached v above h h') (name : Symbol) :
    (h'.walk ⟨h.size⟩ name).1 = (h'.walk above name).1 := by
  have hown : h'.own? ⟨h.size⟩ name = none := by
    rw [hatt.own?_eq, own?, get?_eq_none_iff.mpr h.not_knows_size]
    rfl
  rw [walk_fst, walk_fst]
  by_cases hlists : ∃ behind, h'.Lists above behind
  · obtain ⟨behind, hbehind⟩ := hlists
    obtain ⟨h₁, heq, -⟩ := hbehind.ancestors_eq
    obtain ⟨h₂, heq', -⟩ := (hatt.lists_new_iff.mpr ⟨behind, hbehind, rfl⟩).ancestors_eq
    rw [heq, heq', firstOwn?_cons, hown, Option.none_or]
  · have hnone := not_exists.mp hlists
    have hnone' (list : List ClassId) : ¬ h'.Lists ⟨h.size⟩ list := fun hlist => by
      obtain ⟨behind, hbehind, -⟩ := hatt.lists_new_iff.mp hlist
      exact hnone behind hbehind
    rw [ancestors_of_not_lists hnone, ancestors_of_not_lists hnone']

theorem closed (hatt : Attached v above h h') (hclosed : h.Closed) (habove : h.Knows above) :
    h'.Closed where
  edge {a b} hab := by
    obtain ⟨r', hr', hb⟩ := edge_iff.mp hab
    rcases hatt.knows_iff.mp (.of_get? hr') with ha | rfl
    · have hshape : h'.shape? a = h.shape? a := hatt.map_get?_eq (fun _ _ => rfl) ha
      exact hatt.knows_iff.mpr (.inl (hclosed.edge ((edge_congr hshape).mp hab)))
    · obtain ⟨name, hr⟩ := hatt.new
      obtain rfl := Option.some.inj (hr.symm.trans hr')
      obtain rfl : b = above := by simpa [Record.links, Record.new] using hb
      exact hatt.knows_iff.mpr (.inl habove)
  attached {x s} hs := by
    rcases hatt.attached_iff.mp hs with hold | ⟨-, rfl⟩
    · exact hatt.knows_iff.mpr (.inl (hclosed.attached hold))
    · exact hatt.knows_new

end Attached

end Hierarchy

/-- A receiver is there before a step from one hierarchy to another: it is no class that the step
makes, and no object of one. -/
def Value.ThereBefore (h h' : Hierarchy τ) : Value → Prop
  | .object o => h'.Knows o.declaredClass → h.Knows o.declaredClass
  | .module id => h.Knows id
  | _ => True

namespace CoreClasses

open Hierarchy

variable {core : CoreClasses} {h h' h'' : Hierarchy τ} {v w : Value} {above id : ClassId}

theorem classOf_eq_of_attached (hatt : Attached v above h h') (hw : w.ThereBefore h h') :
    core.classOf h' w = core.classOf h w := by
  cases w with
  | module id =>
    have hmodule := hatt.map_get?_eq (f := Record.isModule) (fun _ _ => rfl) hw
    obtain ⟨r, hr⟩ := Knows.get? hw
    obtain ⟨m, hr'⟩ := hatt.old hr
    simp only [classOf, hr, hr', Option.any_some]
    rfl
  | _ => rfl

/-- Look-ups for a receiver that is there begin at a class that is there. -/
theorem effectiveClass_thereBefore (hcore : core.KnownIn h) (hclosed : h.Closed)
    (hw : w.ThereBefore h h') (hknown : h'.Knows (core.effectiveClass h w)) :
    h.Knows (core.effectiveClass h w) := by
  have hnamed (name : String) {id : ClassId} (hmem : (name, id) ∈ core.named) : h.Knows id :=
    hcore (name, id) hmem
  cases w with
  | object o =>
    rw [effectiveClass] at hknown ⊢
    cases hs : h.singletonOf? o with
    | none =>
      rw [hs] at hknown
      exact hw hknown
    | some s => exact hclosed.attached (v := .object o) hs
  | module id =>
    rw [effectiveClass]
    cases hm : nearestMetaclass h id with
    | none =>
      rw [Option.getD_none, classOf]
      split
      · exact hcore.module
      · exact hcore.cls
    | some m =>
      obtain ⟨b, hb⟩ := exists_metaclass?_of_nearestMetaclass hm
      exact hclosed.attached (v := .module b) hb
  | nil => exact hnamed "NilClass" (by simp [named, effectiveClass, classOf])
  | bool b =>
    cases b
    · exact hnamed "FalseClass" (by simp [named, effectiveClass, classOf])
    · exact hnamed "TrueClass" (by simp [named, effectiveClass, classOf])
  | integer i => exact hnamed "Integer" (by simp [named, effectiveClass, classOf])
  | float x => exact hnamed "Float" (by simp [named, effectiveClass, classOf])
  | symbol s => exact hnamed "Symbol" (by simp [named, effectiveClass, classOf])
  | text t => exact hnamed "String" (by simp [named, effectiveClass, classOf])
  | foreign f => exact hnamed "ForeignObject" (by simp [named, effectiveClass, classOf])

/-- The search for a singleton class that came by the owner ends there. -/
theorem nearestMetaclass_of_attached (hatt : Attached (.module id) above h h') {x : ClassId}
    (hpath : ReflTransGen (Climbs h) x id) : nearestMetaclass h' x = some ⟨h.size⟩ := by
  have hself : nearestMetaclass h' id = some ⟨h.size⟩ :=
    nearestMetaclass_of_metaclass? (hatt.attached_iff (x := .module id).mpr (.inr ⟨rfl, rfl⟩))
  induction hpath using ReflTransGen.head_induction_on with
  | refl => exact hself
  | @head a b hstep _ ih =>
    by_cases ha : a = id
    · rw [ha, hself]
    · have hkin : h'.kin? a = h.kin? a :=
        hatt.kin?_eq hstep.knows fun heq => ha (Value.module.inj heq).symm
      rw [nearestMetaclass_of_climbs (hstep.congr hkin), ih]

theorem knows_of_climbs (hclosed : h.Closed) {x y : ClassId} (hx : h.Knows x)
    (hpath : ReflTransGen (Climbs h) x y) : h.Knows y := by
  cases hpath with
  | refl => exact hx
  | tail _ hstep => exact hclosed.edge hstep.edge

/-- All that come by a record on the way to a singleton class have the same class as values. -/
theorem classOf_of_climbs {x : ClassId} (hpath : ReflTransGen (Climbs h) x id)
    (hplain : ∀ x, Climbs h x id → (h.get? id).any Record.isModule = false) :
    core.classOf h (.module x) = core.classOf h (.module id) := by
  rcases ReflTransGen.cases_head hpath with rfl | ⟨y, hfirst, -⟩
  · rfl
  · rcases ReflTransGen.cases_tail hpath with rfl | ⟨z, -, hlast⟩
    · rfl
    · obtain ⟨k, hk, -, hmodule, -⟩ := hfirst
      obtain ⟨r, hr, rfl⟩ := kin?_eq_some_iff.mp hk
      have hmodule : r.isModule = false := hmodule
      simp only [classOf, hplain z hlast, hr, Option.any_some, hmodule]

/-- Look-ups for a receiver begin where they began, or at the new singleton class if they began at the
class above it. The singleton class of a class serves the classes below it as well; they are all
classes, and so is this one. -/
theorem effectiveClass_cases (hatt : Attached v above h h') (hclosed : h.Closed)
    (habove : core.effectiveClass h v = above)
    (hplain : ∀ x id, v = .module id → Climbs h x id → (h.get? id).any Record.isModule = false)
    (hw : w.ThereBefore h h') :
    core.effectiveClass h' w = core.effectiveClass h w ∨
      core.effectiveClass h' w = ⟨h.size⟩ ∧ core.effectiveClass h w = above := by
  have hclass : core.classOf h' w = core.classOf h w := classOf_eq_of_attached hatt hw
  cases w with
  | object o =>
    by_cases hv : Value.object o = v
    · have hs : h'.singletonOf? o = some ⟨h.size⟩ :=
        hatt.attached_iff (x := .object o).mpr (.inr ⟨hv, rfl⟩)
      refine .inr ⟨by rw [effectiveClass, hs, Option.getD_some], ?_⟩
      rw [hv, habove]
    · have hsame : h'.singletonOf? o = h.singletonOf? o := by
        refine Option.ext fun s => ?_
        have hiff := hatt.attached_iff (x := .object o) (s := s)
        simp only [attached?, hv, false_and, or_false] at hiff
        exact hiff
      exact .inl (by rw [effectiveClass, effectiveClass, hsame])
  | module x =>
    by_cases hpath : ∃ id, v = .module id ∧ ReflTransGen (Climbs h) x id
    · obtain ⟨id, rfl, hpath⟩ := hpath
      refine .inr ⟨by rw [effectiveClass, nearestMetaclass_of_attached hatt hpath,
        Option.getD_some], ?_⟩
      have hclassOf : core.classOf h (.module x) = core.classOf h (.module id) :=
        classOf_of_climbs hpath fun y hy => hplain y id rfl hy
      rw [← habove, effectiveClass, effectiveClass, nearestMetaclass_of_path hpath, hclassOf]
    · -- The search for a singleton class does not come by the owner, so it meets the records that it met.
      have hsame : nearestMetaclass h' x = nearestMetaclass h x :=
        nearestMetaclass_congr fun y hy => by
          refine hatt.kin?_eq (knows_of_climbs hclosed hw hy) ?_
          rintro rfl
          exact hpath ⟨y, rfl, hy⟩
      exact .inl (by rw [effectiveClass, effectiveClass, hsame, hclass])
  | _ => exact .inl hclass

/-- The step from one hierarchy to another takes no generation and no epoch, leaves of every record all
but its singleton class, and leaves its ancestors. For every receiver that is there, all walks from
the class from which its look-ups begin come to what they came to. -/
structure Invisible (core : CoreClasses) (h h' : Hierarchy τ) : Prop where
  generation_eq : h'.generation = h.generation
  epoch_eq : h'.epoch = h.epoch
  record_eq : ∀ {id r}, h.get? id = some r → ∃ m, h'.get? id = some { r with metaclass := m }
  ancestors_eq : ∀ {id}, h.Knows id → (h'.ancestors id).1 = (h.ancestors id).1
  walk_eq : ∀ {w : Value}, w.ThereBefore h h' → ∀ name,
    (h'.walk (core.effectiveClass h' w) name).1 = (h.walk (core.effectiveClass h w) name).1

theorem Invisible.refl (core : CoreClasses) (h : Hierarchy τ) : Invisible core h h :=
  ⟨rfl, rfl, fun {_ r} hr => ⟨r.metaclass, hr⟩, fun _ => rfl, fun _ _ => rfl⟩

theorem Invisible.knows (hinv : Invisible core h h') {id : ClassId} (hid : h.Knows id) :
    h'.Knows id := by
  obtain ⟨r, hr⟩ := hid.get?
  obtain ⟨m, hr'⟩ := hinv.record_eq hr
  exact .of_get? hr'

theorem Invisible.trans (hfirst : Invisible core h h') (hthen : Invisible core h' h'') :
    Invisible core h h'' where
  generation_eq := hthen.generation_eq.trans hfirst.generation_eq
  epoch_eq := hthen.epoch_eq.trans hfirst.epoch_eq
  record_eq hr := by
    obtain ⟨m, hr'⟩ := hfirst.record_eq hr
    obtain ⟨m', hr''⟩ := hthen.record_eq hr'
    exact ⟨m', hr''⟩
  ancestors_eq hid := (hthen.ancestors_eq (hfirst.knows hid)).trans (hfirst.ancestors_eq hid)
  walk_eq {w} hw name := by
    have hbefore : w.ThereBefore h h' := by
      cases w with
      | object o => exact fun hknown => hw (hthen.knows hknown)
      | module id => exact hw
      | _ => trivial
    have hbetween : w.ThereBefore h' h'' := by
      cases w with
      | object o => exact fun hknown => hfirst.knows (hw hknown)
      | module id => exact hfirst.knows hw
      | _ => trivial
    exact (hthen.walk_eq hbetween name).trans (hfirst.walk_eq hbefore name)

/-- A singleton class that is made below the class from which look-ups for its owner begin is not
seen. -/
theorem invisible_of_attached (hatt : Attached v above h h') (hcore : core.KnownIn h)
    (hclosed : h.Closed) (habove : core.effectiveClass h v = above)
    (hplain : ∀ x id, v = .module id → Climbs h x id → (h.get? id).any Record.isModule = false) :
    Invisible core h h' where
  generation_eq := hatt.generation_eq
  epoch_eq := hatt.epoch_eq
  record_eq := hatt.old
  ancestors_eq hid := ancestors_fst_congr fun list => hatt.lists_iff hclosed fun _ => hid
  walk_eq {w} hw name := by
    have hthere := effectiveClass_thereBefore hcore hclosed hw
    rcases effectiveClass_cases hatt hclosed habove hplain hw with hsame | ⟨hnew, hold⟩
    · rw [hsame]
      exact hatt.walk_eq hclosed hthere name
    · rw [hnew, hold, hatt.walk_new]
      exact hatt.walk_eq hclosed (hold ▸ hthere) name

/-- No class is directly below a module. -/
def ClassesBelowClasses (h : Hierarchy τ) : Prop :=
  ∀ {id parent k up}, h.kin? id = some k → k.flags.isModule = false →
    k.superclass = some parent → h.kin? parent = some up → up.flags.isModule = false

/-- The singleton class of a class or module is made without being seen. -/
theorem invisible_attachToModule {r : Record τ} (hcore : core.KnownIn h) (hclosed : h.Closed)
    (hr : h.get? id = some r) (hknown : h.Knows above)
    (habove : r.metaclass = none → core.effectiveClass h (.module id) = above)
    (hplain : ∀ x, Climbs h x id → r.isModule = false) :
    Invisible core h (h.attachToModule id above).2 ∧ (h.attachToModule id above).2.Closed := by
  cases hmetaclass : r.metaclass with
  | some m =>
    have heq : (h.attachToModule id above).2 = h := by simp only [attachToModule, hr, hmetaclass]
    rw [heq]
    exact ⟨.refl core h, hclosed⟩
  | none =>
    have hatt := attached_attachToModule hr hmetaclass above
    refine ⟨invisible_of_attached hatt hcore hclosed (habove hmetaclass) fun x id' hv hclimbs => ?_,
      hatt.closed hclosed hknown⟩
    obtain rfl := Value.module.inj hv
    rw [hr, Option.any_some]
    exact hplain x hclimbs

/-- A class or module that has no singleton class, and whose search for one does not go on, begins its
look-ups at the class of classes or of modules. -/
theorem effectiveClass_of_not_climbs {r : Record τ} (hr : h.get? id = some r)
    (hnone : r.metaclass = none) (hstop : ∀ b, ¬ Climbs h id b) :
    core.effectiveClass h (.module id) = if r.isModule then core.module else core.cls := by
  have hnearest : nearestMetaclass h id = none := by
    rw [nearestMetaclass_of_not_climbs hstop, metaclass?_eq (kin?_eq_some_iff.mpr ⟨r, hr, rfl⟩)]
    exact hnone
  rw [effectiveClass, hnearest, Option.getD_none, classOf, hr, Option.any_some]

/-- The singleton classes of a class and of the classes above it are made without being seen. The
induction is on the way up: when the turn comes to a class, the one above it has the singleton class
from which look-ups for both begin. -/
theorem invisible_metaclassWithin (hcore : core.KnownIn h) (hclosed : h.Closed)
    (hclasses : ClassesBelowClasses h) {depth : Nat} {made : Except Fault ClassId}
    (hmade : core.metaclassWithin depth h id = some (made, h')) :
    Invisible core h h' ∧ h'.Closed := by
  -- The superclass gets its singleton class first, so the induction is on the depth of the recursion.
  induction depth generalizing h' id made with
  | zero => cases hmade
  | succ depth ih =>
    rw [metaclassWithin] at hmade
    split at hmade
    · obtain ⟨-, rfl⟩ := Prod.mk.inj (Option.some.inj hmade)
      exact ⟨.refl core h, hclosed⟩
    · rename_i r hr
      have hk : h.kin? id = some r.kin := kin?_eq_some_iff.mpr ⟨r, hr, rfl⟩
      split at hmade
      · obtain ⟨-, rfl⟩ := Prod.mk.inj (Option.some.inj hmade)
        exact ⟨.refl core h, hclosed⟩
      · rename_i hnone
        have hkin {b : ClassId} (hclimbs : Climbs h id b) :
            r.isModule = false ∧ r.superclass = some b := by
          obtain ⟨k, hk', -, hmodule, hsuper⟩ := hclimbs
          obtain rfl := Option.some.inj (hk.symm.trans hk')
          exact ⟨hmodule, hsuper⟩
        split at hmade
        · rename_i hmodule
          have hbegin : core.effectiveClass h (.module id) = core.module := by
            rw [effectiveClass_of_not_climbs hr hnone, if_pos hmodule]
            intro b hclimbs
            rw [(hkin hclimbs).1] at hmodule
            cases hmodule
          have hstep := invisible_attachToModule hcore hclosed hr hcore.module (fun _ => hbegin)
            fun x hclimbs => ?_
          · rwa [Option.some.inj hmade] at hstep
          · obtain ⟨k, hkx, -, hcls, hsuper⟩ := hclimbs
            exact hclasses hkx hcls hsuper hk
        · rename_i hmodule
          have hcls : r.isModule = false := eq_false_of_ne_true hmodule
          split at hmade
          · rename_i hsuper
            have hbegin : core.effectiveClass h (.module id) = core.cls := by
              rw [effectiveClass_of_not_climbs hr hnone, hcls]
              · rfl
              · intro b hclimbs
                rw [(hkin hclimbs).2] at hsuper
                cases hsuper
            have hstep := invisible_attachToModule hcore hclosed hr hcore.cls (fun _ => hbegin)
              fun _ _ => hcls
            rwa [Option.some.inj hmade] at hstep
          · rename_i parent hsuper
            obtain ⟨⟨above, h₁⟩, hup, hrest⟩ := Option.bind_eq_some_iff.mp hmade
            obtain ⟨hinv, hclosed₁⟩ := ih hup
            cases above with
            | error fault =>
              obtain ⟨-, rfl⟩ := Prod.mk.inj (Option.some.inj hrest)
              exact ⟨hinv, hclosed₁⟩
            | ok above =>
              -- Look-ups for this class begin at the new singleton class of its superclass by now.
              have hparent : h₁.metaclass? parent = some above := attached?_of_metaclassWithin hup
              obtain ⟨m, hr₁⟩ := hinv.record_eq hr
              have hcore₁ := hcore.of_grows (grows_metaclassWithin hup)
              have hbegin (hm : m = none) : core.effectiveClass h₁ (.module id) = above := by
                have hclimbs : Climbs h₁ id parent :=
                  ⟨_, kin?_eq_some_iff.mpr ⟨_, hr₁, rfl⟩, hm, hcls, hsuper⟩
                rw [effectiveClass, nearestMetaclass_of_climbs hclimbs,
                  nearestMetaclass_of_metaclass? hparent, Option.getD_some]
              have hknown : h₁.Knows above := hclosed₁.attached (v := .module parent) hparent
              have hstep := invisible_attachToModule hcore₁ hclosed₁ hr₁ hknown hbegin
                fun _ _ => hcls
              rw [Option.some.inj hrest] at hstep
              exact ⟨hinv.trans hstep.1, hstep.2⟩

/-- A singleton class is made without being seen, whatever value it is for. -/
theorem invisible_singletonClassOf (hcore : core.KnownIn h) (hclosed : h.Closed)
    (hclasses : ClassesBelowClasses h) {s : ClassId}
    (hok : (core.singletonClassOf h v).1 = .ok s) :
    Invisible core h (core.singletonClassOf h v).2 := by
  rcases singletonClassOf_cases hok with ⟨o, name, rfl, heq⟩ | ⟨id, rfl, heq, hmade⟩
  · rw [heq]
    cases hs : h.singletonOf? o with
    | some s =>
      rw [attachToObject_of_attached? (o := o) hs]
      exact .refl core h
    | none =>
      have hatt := attached_attachToObject hs name
      refine invisible_of_attached hatt hcore hclosed ?_ fun _ _ hv => by cases hv
      rw [effectiveClass, hs, Option.getD_none]
  · rw [heq]
    exact (invisible_metaclassWithin hcore hclosed hclasses hmade).1

/-- In any state that can be reached with the core classes, and in which every superclass exists and
no class is below a module, a singleton class is made without being seen: counters, stamps, tables
and ancestors stay, and for every receiver that is there, walks come to what they came to. It does not
matter how many singleton classes are made on the way up, or that superclasses were missing before. -/
theorem attaching_invisible_after {ops : List (Operation Target)} {v : Value} {s : ClassId} :
    let core := (bootstrap (empty : Hierarchy Target)).1
    let h := (bootstrap (empty : Hierarchy Target)).2.after ops
    (∀ id parent, h.superclass? id = some parent → h.Knows parent) → ClassesBelowClasses h →
      (core.singletonClassOf h v).1 = .ok s → Invisible core h (core.singletonClassOf h v).2 := by
  intro core h hsuper hclasses hok
  have hstart : (bootstrap (empty : Hierarchy Target)).2 = empty.after (requests.map .edit) := by
    rw [bootstrap_eq_run, after_map_edit]
  have htethered : h.Tethered := by
    have hall := tethered_after (requests.map .edit ++ ops)
    rwa [after_append, ← hstart] at hall
  refine invisible_singletonClassOf (knownIn_bootstrap.of_grows (grows_after _ ops)) ⟨?_, ?_⟩
    hclasses hok
  · intro a b hab
    obtain ⟨r, hr, hb⟩ := edge_iff.mp hab
    rcases List.mem_append.mp hb with hb | hb
    · refine hsuper a b ?_
      rw [superclass?_eq (kin?_eq_some_iff.mpr ⟨r, hr, rfl⟩)]
      exact Option.mem_toList.mp hb
    · exact htethered.included (ties?_eq_some_iff.mpr ⟨r, hr, rfl⟩) hb
  · exact htethered.attached

/-- A class is made below a number that only the next class takes, which then gets a singleton class.
A class below both gets its own, together with the one in between. Its look-ups begin at another
class then, but find what they found. -/
theorem attaching_invisible_after_forward_reference :
    let core := (bootstrap (empty : Hierarchy Target)).1
    let foo : Symbol := ⟨"foo"⟩
    let ops : List (Operation Target) :=
      [.edit (.create "B" (some ⟨14⟩) {}), .edit (.create "A" (some core.object) {}),
        .edit (.create "C" (some ⟨13⟩) {}), .singletonClassOf core (.module ⟨14⟩)]
    let h := (bootstrap (empty : Hierarchy Target)).2.after ops
    let h' := (core.singletonClassOf h (.module ⟨15⟩)).2
    h'.size = h.size + 2 ∧ core.effectiveClass h (.module ⟨15⟩) = ⟨18⟩ ∧
      core.effectiveClass h' (.module ⟨15⟩) = ⟨20⟩ ∧ h'.generation = h.generation ∧
        (h'.walk ⟨20⟩ foo).1 = (h.walk ⟨18⟩ foo).1 := by
  intro core foo ops h h'
  have hids : ∀ id ∈ h.ids, ∀ k ∈ h.kin? id, ∀ parent ∈ k.superclass,
      ∃ up ∈ h.kin? parent, up.flags.isModule = false := by decide +kernel
  have hup {id parent : ClassId} {k : Kin} (hk : h.kin? id = some k)
      (hparent : k.superclass = some parent) :
      ∃ up, h.kin? parent = some up ∧ up.flags.isModule = false := by
    exact hids id (mem_ids.mpr (.of_kin? hk)) k hk parent hparent
  have hsuper (id parent : ClassId) (hparent : h.superclass? id = some parent) :
      h.Knows parent := by
    obtain ⟨k, hk, hparent⟩ := Option.bind_eq_some_iff.mp hparent
    obtain ⟨up, hkup, -⟩ := hup hk hparent
    exact .of_kin? hkup
  have hclasses : ClassesBelowClasses h := fun hk _ hparent hkup => by
    obtain ⟨up, hkup', hmodule⟩ := hup hk hparent
    rwa [Option.some.inj (hkup.symm.trans hkup')]
  have hok : (core.singletonClassOf h (.module ⟨15⟩)).1 = .ok ⟨20⟩ := by decide +kernel
  have hinv := attaching_invisible_after hsuper hclasses hok
  have hbefore : core.effectiveClass h (.module ⟨15⟩) = ⟨18⟩ := by decide +kernel
  have hafter : core.effectiveClass h' (.module ⟨15⟩) = ⟨20⟩ := by decide +kernel
  have hwalk := hinv.walk_eq (w := .module ⟨15⟩) (show h.Knows ⟨15⟩ by decide +kernel) foo
  rw [hbefore, hafter] at hwalk
  exact ⟨by decide +kernel, hbefore, hafter, hinv.generation_eq, hwalk⟩

end CoreClasses

end LateBinding
