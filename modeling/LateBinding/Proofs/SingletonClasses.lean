import LateBinding.Proofs.Bootstrap
import LateBinding.Proofs.Hierarchy.Lasting

namespace LateBinding

variable {τ : Type}

/-- The operation is a request for a singleton class. -/
def Operation.AsksSingleton : Operation τ → Prop
  | .edit (.attachToObject ..) | .edit (.attachToModule ..) | .singletonClassOf .. => True
  | _ => False

namespace Hierarchy

variable {h h' : Hierarchy τ} {v : Value} {s : ClassId}

theorem attached?_of_attachToObject (h : Hierarchy τ) (o : ObjectRef) (name : String) :
    (h.attachToObject o name).2.attached? (.object o) = some (h.attachToObject o name).1 := by
  cases hs : h.singletonOf? o with
  | some s => simp only [attachToObject, hs, attached?]
  | none =>
    rw [attached?_attachToObject hs]
    refine .inr ⟨rfl, ?_⟩
    simp only [attachToObject, hs]
    rfl

theorem attached?_of_attachToModule {module superclass : ClassId}
    (hok : (h.attachToModule module superclass).1 = .ok s) :
    (h.attachToModule module superclass).2.attached? (.module module) = some s := by
  cases hk : h.kin? module with
  | none =>
    have hnone : h.get? module = none := Option.map_eq_none_iff.mp hk
    simp [attachToModule, hnone] at hok
  | some k =>
    obtain ⟨m, k', hm, hk', hmetaclass⟩ := metaclass_attachToModule hk superclass
    obtain rfl : s = m := Except.ok.inj (hok.symm.trans hm)
    rw [attached?, metaclass?_eq hk', hmetaclass]

/-- A class or module that has its singleton class answers it. -/
theorem metaclass_of_attached? {id : ClassId} (hs : h.attached? (.module id) = some s) :
    ∃ r, h.get? id = some r ∧ r.metaclass = some s := by
  obtain ⟨k, hk, hmetaclass⟩ := Option.bind_eq_some_iff.mp hs
  obtain ⟨r, hr, rfl⟩ := kin?_eq_some_iff.mp hk
  exact ⟨r, hr, hmetaclass⟩

theorem attachToObject_of_attached? {o : ObjectRef} (hs : h.attached? (.object o) = some s)
    (name : String) : h.attachToObject o name = (s, h) := by
  have hs : h.singletonOf? o = some s := hs
  rw [attachToObject, hs]

theorem attachToModule_of_attached? {module : ClassId} (hs : h.attached? (.module module) = some s)
    (superclass : ClassId) : h.attachToModule module superclass = (.ok s, h) := by
  obtain ⟨r, hr, hmetaclass⟩ := metaclass_of_attached? hs
  simp only [attachToModule, hr, hmetaclass]

end Hierarchy

namespace CoreClasses

open Hierarchy

variable {core : CoreClasses} {h h' : Hierarchy τ} {v : Value} {s : ClassId}

theorem attached?_of_metaclassWithin {depth : Nat} {id : ClassId}
    (hmade : core.metaclassWithin depth h id = some (.ok s, h')) :
    h'.attached? (.module id) = some s := by
  have hattach {g : Hierarchy τ} {above : ClassId}
      (heq : some (g.attachToModule id above) = some (.ok s, h')) :
      h'.attached? (.module id) = some s := by
    have hok : (g.attachToModule id above).1 = .ok s := by rw [Option.some.inj heq]
    have hattached := attached?_of_attachToModule hok
    rwa [Option.some.inj heq] at hattached
  cases depth with
  | zero => cases hmade
  | succ depth =>
    rw [metaclassWithin] at hmade
    split at hmade
    · cases hmade
    · rename_i r hr
      split at hmade
      · rename_i existing hmetaclass
        obtain ⟨heq, rfl⟩ := Prod.mk.inj (Option.some.inj hmade)
        rw [attached?, metaclass?_eq (kin?_eq_some_iff.mpr ⟨r, hr, rfl⟩), ← Except.ok.inj heq]
        exact hmetaclass
      · split at hmade
        · exact hattach hmade
        · split at hmade
          · exact hattach hmade
          · obtain ⟨⟨above, h₁⟩, -, hrest⟩ := Option.bind_eq_some_iff.mp hmade
            cases above with
            | error fault => cases hrest
            | ok above => exact hattach hrest

/-- Only objects, classes and modules are given singleton classes. -/
theorem singletonClassOf_cases (hok : (core.singletonClassOf h v).1 = .ok s) :
    (∃ o name, v = .object o ∧ core.singletonClassOf h v =
      (.ok (h.attachToObject o name).1, (h.attachToObject o name).2)) ∨
      ∃ id, v = .module id ∧ core.singletonClassOf h v = core.metaclassOf h id ∧
        core.metaclassWithin (h.size + 1) h id = some (core.metaclassOf h id) := by
  rw [singletonClassOf] at hok ⊢
  split at hok
  · cases hok
  · split at hok
    · cases hok
    · rename_i r hr hallowed
      simp only [if_neg hallowed]
      cases v with
      | object o => exact .inl ⟨o, _, rfl, rfl⟩
      | module id =>
        refine .inr ⟨id, rfl, rfl, ?_⟩
        simp only [metaclassOf] at hok ⊢
        cases hmade : core.metaclassWithin (h.size + 1) h id with
        | none =>
          rw [hmade] at hok
          cases hok
        | some made => rfl
      | _ => cases hok

theorem attached?_of_singletonClassOf (hok : (core.singletonClassOf h v).1 = .ok s) :
    (core.singletonClassOf h v).2.attached? v = some s := by
  rcases singletonClassOf_cases hok with ⟨o, name, rfl, heq⟩ | ⟨id, rfl, heq, hmade⟩
  · rw [heq] at hok ⊢
    rw [attached?_of_attachToObject, Except.ok.inj hok]
  · rw [heq] at hok ⊢
    exact attached?_of_metaclassWithin (hmade.trans (congrArg some (Prod.ext hok rfl)))

/-- A request for the singleton class that a value has already answers it and changes nothing, unless
it is refused. -/
theorem singletonClassOf_of_attached? (hs : h.attached? v = some s) {s' : ClassId}
    (hok : (core.singletonClassOf h v).1 = .ok s') :
    core.singletonClassOf h v = (.ok s, h) := by
  rcases singletonClassOf_cases hok with ⟨o, name, rfl, heq⟩ | ⟨id, rfl, heq, hmade⟩
  · rw [heq, attachToObject_of_attached? hs]
  · obtain ⟨r, hr, hmetaclass⟩ := metaclass_of_attached? hs
    rw [metaclassWithin, hr] at hmade
    simp only [hmetaclass] at hmade
    rw [heq, ← Option.some.inj hmade]

theorem singletonClassOf_forbidden {r : Record τ} (hr : h.get? (core.classOf h v) = some r)
    (hforbids : r.forbidsSingletons = true) :
    core.singletonClassOf h v = (.error (.singletonForbidden r.name), h) := by
  simp only [singletonClassOf, hr, if_pos hforbids]

/-- The classes of classes and of modules allow singleton classes. -/
def AllowsMetaclasses (core : CoreClasses) (h : Hierarchy τ) : Prop :=
  ∀ id ∈ [core.module, core.cls], ∃ t, h.ties? id = some t ∧ t.flags = {}

theorem AllowsMetaclasses.of_grows (hallows : core.AllowsMetaclasses h) (hgrows : h.Grows h') :
    core.AllowsMetaclasses h' := by
  intro id hid
  obtain ⟨t, ht, hflags⟩ := hallows id hid
  obtain ⟨t', ht', hflags', -⟩ := hgrows.ties ht
  exact ⟨t', ht', hflags'.trans hflags⟩

theorem KnownIn.of_grows (hcore : core.KnownIn h) (hgrows : h.Grows h') : core.KnownIn h' :=
  fun p hp => hgrows.knows (hcore p hp)

/-- Classes and modules that exist are given singleton classes. -/
theorem AllowsMetaclasses.singletonClassOf_ok (hallows : core.AllowsMetaclasses h) (hh : h.Sound)
    (hcore : core.KnownIn h) {id : ClassId} (hid : h.Knows id) :
    ∃ s, (core.singletonClassOf h (.module id)).1 = .ok s := by
  obtain ⟨m, hm⟩ := metaclassOf_ok hh hcore hid
  have hclass : core.classOf h (.module id) ∈ [core.module, core.cls] := by
    rw [classOf]
    split <;> simp
  obtain ⟨t, ht, hflags⟩ := hallows _ hclass
  obtain ⟨r, hr, rfl⟩ := ties?_eq_some_iff.mp ht
  have hallowed : r.forbidsSingletons = false := by
    have hplain : r.flags = {} := hflags
    rw [Record.forbidsSingletons, hplain]
    rfl
  refine ⟨m, ?_⟩
  simp only [singletonClassOf, hr, hallowed, Bool.false_eq_true, if_false, hm]

/-- An object is given a singleton class if its declared class exists and is not one of those whose
instances have none. -/
theorem singletonClassOf_object_ok (core : CoreClasses) {o : ObjectRef} {r : Record τ}
    (hr : h.get? o.declaredClass = some r) (hallowed : r.forbidsSingletons = false) :
    ∃ s, (core.singletonClassOf h (.object o)).1 = .ok s := by
  refine ⟨(h.attachToObject o s!"#<Class:#<{r.name}>>").1, ?_⟩
  simp only [singletonClassOf, classOf, hr, hallowed, Bool.false_eq_true, if_false]

end CoreClasses

namespace Hierarchy

open CoreClasses

variable {h : Hierarchy τ} {v : Value} {s : ClassId}

theorem Sound.attached?_operation (hh : h.Sound) {op : Operation τ} (hop : ¬ op.AsksSingleton) :
    (op.apply h).2.attached? = h.attached? := by
  have hasked (id : ClassId) : (h.ancestors id).2.attached? = h.attached? :=
    (sameTies_of_forget_eq (h.forget_ancestors id)).attached?_eq
  cases op with
  | edit e =>
    cases e with
    | create name superclass flags =>
      exact attached?_congr (h.metaclass?_create name superclass flags) rfl
    | attachToObject | attachToModule => exact absurd trivial hop
    | define | remove | undefine | addAlias | setVisibility => exact (sameTies_table rfl).attached?_eq
    | addInclude target module => exact (hh.sameKin_addInclude target module).attached?_eq
    | setSuperclass cls superclass => exact (h.sameTies_setSuperclass cls superclass).attached?_eq
    | ancestors id => exact hasked id
    | isAncestor descendant ancestor => exact hasked descendant
    | record id => rfl
  | singletonClassOf core v => exact absurd trivial hop
  | walk id name => exact hasked id
  | walkCached cache id name => exact (hh.recalls_walkCached cache id name).sameKin.attached?_eq
  | effectiveClass | describe | look => rfl

/-- The singleton class of a value that had none is made, and attached, by one request for a singleton
class. -/
structure Attaches (op : Operation τ) (h : Hierarchy τ) (v : Value) (s : ClassId) : Prop where
  asks : op.AsksSingleton
  none_before : h.attached? v = none
  unknown_before : ¬ h.Knows s
  attached_after : (op.apply h).2.attached? v = some s
  known_after : (op.apply h).2.Knows s

theorem Sound.attaches_of_attached? (hh : h.Sound) {op : Operation τ}
    (hnone : h.attached? v = none) (hs : (op.apply h).2.attached? v = some s) :
    Attaches op h v s := by
  have hasks : op.AsksSingleton := by
    by_contra hnot
    rw [hh.attached?_operation hnot, hnone] at hs
    cases hs
  rcases (h.grows_operation op).fresh hs with hold | ⟨hnew, t, ht, -⟩
  · rw [hnone] at hold
    cases hold
  · exact ⟨hasks, hnone, hnew, hs, .of_ties? ht⟩

/-- What is attached after a run and was not before is attached by one of its operations. -/
theorem Sound.exists_attaches (hh : h.Sound) {ops : List (Operation τ)} (hops : h.Supports ops)
    (hnone : h.attached? v = none) (hs : (h.after ops).attached? v = some s) :
    ∃ pre op post, ops = pre ++ op :: post ∧ Attaches op (h.after pre) v s := by
  have hstep {h : Hierarchy τ} {op : Operation τ} (hh : h.Sound) (_ : op.NamesKnownClasses h)
      (hnone : h.attached? v = none) :
      (op.apply h).2.attached? v = none ∨ ∃ s', Attaches op h v s' := by
    cases hmade : (op.apply h).2.attached? v with
    | none => exact .inl rfl
    | some s' => exact .inr ⟨s', hh.attaches_of_attached? hnone hmade⟩
  rcases hh.kept_or hstep hops hnone with hstill | ⟨pre, op, post, rfl, s', hattaches⟩
  · rw [hstill] at hs
    cases hs
  · have hkept := (grows_after (op.apply (h.after pre)).2 post).attached hattaches.attached_after
    rw [h.after_append] at hs
    obtain rfl := Option.some.inj (hkept.symm.trans hs)
    exact ⟨pre, op, post, rfl, hattaches⟩

/-- A value has its singleton class, and every request for it that is not refused answers this one and
changes nothing. -/
structure Settled (h : Hierarchy τ) (v : Value) (s : ClassId) : Prop where
  attached?_eq : h.attached? v = some s
  object_eq : ∀ o name, v = .object o → h.attachToObject o name = (s, h)
  module_eq : ∀ id superclass, v = .module id → h.attachToModule id superclass = (.ok s, h)
  value_eq : ∀ (core : CoreClasses) s', (core.singletonClassOf h v).1 = .ok s' →
    core.singletonClassOf h v = (.ok s, h)

theorem settled_of_attached? (hs : h.attached? v = some s) : h.Settled v s where
  attached?_eq := hs
  object_eq o name ho := by
    subst ho
    exact attachToObject_of_attached? hs name
  module_eq id superclass hid := by
    subst hid
    exact attachToModule_of_attached? hs superclass
  value_eq core s' hok := singletonClassOf_of_attached? hs hok

theorem attached?_bootstrap (v : Value) :
    (bootstrap (empty : Hierarchy Target)).2.attached? v = none := by
  cases v with
  | module id =>
    have hnone : ∀ id ∈ (bootstrap (empty : Hierarchy Target)).2.ids,
        (bootstrap (empty : Hierarchy Target)).2.metaclass? id = none := by decide +kernel
    by_cases hid : (bootstrap (empty : Hierarchy Target)).2.Knows id
    · exact hnone id (mem_ids.mpr hid)
    · rw [attached?, metaclass?, kin?, get?_eq_none_iff.mpr hid]
      rfl
  | _ => rfl

theorem allowsMetaclasses_bootstrap :
    (bootstrap (empty : Hierarchy Target)).1.AllowsMetaclasses
      (bootstrap (empty : Hierarchy Target)).2 := by
  intro id hid
  rw [List.mem_cons, List.mem_singleton] at hid
  rcases hid with rfl | rfl
  · exact ⟨⟨{}, []⟩, by decide +kernel, rfl⟩
  · exact ⟨⟨{}, []⟩, by decide +kernel, rfl⟩

/-- Whatever was done with the core classes, an object, a class or a module that has a singleton class
keeps it for good, and every later request for it answers this one and makes nothing. No two of them
have the same. Each singleton class is a record marked as one, and it was made by the very request
that attached it. What a request answers is attached. With the core classes, a request is refused for
every value whose class says that its instances have none, and is granted for every class and module
that exists, and for every object whose declared class exists and does not say so. -/
theorem attached_once_after {ops : List (Operation Target)}
    (hops : (bootstrap (empty : Hierarchy Target)).2.Supports ops) :
    let core := (bootstrap (empty : Hierarchy Target)).1
    let start := (bootstrap (empty : Hierarchy Target)).2
    let h := start.after ops
    (∀ v s later, h.attached? v = some s → (h.after later).Settled v s) ∧
      (∀ v w s, h.attached? v = some s → h.attached? w = some s → v = w) ∧
      (∀ v s, h.attached? v = some s → (h.get? s).any Record.isSingleton = true ∧
        ∃ pre op post, ops = pre ++ op :: post ∧ Attaches op (start.after pre) v s) ∧
      (∀ o name, (h.attachToObject o name).2.attached? (.object o) =
        some (h.attachToObject o name).1) ∧
      (∀ id superclass s, (h.attachToModule id superclass).1 = .ok s →
        (h.attachToModule id superclass).2.attached? (.module id) = some s) ∧
      (∀ (anyCore : CoreClasses) v s, (anyCore.singletonClassOf h v).1 = .ok s →
        (anyCore.singletonClassOf h v).2.attached? v = some s) ∧
      (∀ v r, h.get? (core.classOf h v) = some r → r.forbidsSingletons = true →
        core.singletonClassOf h v = (.error (.singletonForbidden r.name), h)) ∧
      (∀ id, h.Knows id → ∃ s, (core.singletonClassOf h (.module id)).1 = .ok s) ∧
      ∀ o r, h.get? o.declaredClass = some r → r.forbidsSingletons = false →
        ∃ s, (core.singletonClassOf h (.object o)).1 = .ok s := by
  intro core start h
  have hh : h.Sound := sound_bootstrap.after hops
  have hgrows : start.Grows h := start.grows_after ops
  -- The core classes have no singleton classes, so every one was attached since.
  have hnew {v : Value} {s : ClassId} (hs : h.attached? v = some s) :
      ∃ t, h.ties? s = some t ∧ t.flags.isSingleton = true := by
    rcases hgrows.fresh hs with hold | ⟨-, ht⟩
    · rw [attached?_bootstrap] at hold
      cases hold
    · exact ht
  refine ⟨fun v s later hs => settled_of_attached? ((h.grows_after later).attached hs),
    fun v w s hv hw => hgrows.apart hv hw (attached?_bootstrap v) (attached?_bootstrap w),
    fun v s hs => ⟨?_, sound_bootstrap.exists_attaches hops (attached?_bootstrap v) hs⟩,
    h.attached?_of_attachToObject, fun id superclass s hok => attached?_of_attachToModule hok,
    fun anyCore v s hok => attached?_of_singletonClassOf hok,
    fun v r hr hforbids => singletonClassOf_forbidden hr hforbids, fun id hid => ?_,
    fun o r hr hallowed => core.singletonClassOf_object_ok hr hallowed⟩
  · obtain ⟨t, ht, hflag⟩ := hnew hs
    obtain ⟨r, hr, rfl⟩ := ties?_eq_some_iff.mp ht
    rw [hr]
    exact hflag
  · exact (allowsMetaclasses_bootstrap.of_grows hgrows).singletonClassOf_ok hh
      (knownIn_bootstrap.of_grows hgrows) hid

/-- Two objects of a class, the class itself and a class below it get singleton classes, by each of the
three kinds of requests. The last one asks for that of the class again, on its way up. -/
theorem attached_once_after_mixture :
    let core := (bootstrap (empty : Hierarchy Target)).1
    let o : ObjectRef := ⟨0, ⟨13⟩⟩
    let o' : ObjectRef := ⟨1, ⟨13⟩⟩
    let ops : List (Operation Target) :=
      [.edit (.create "A" (some core.object) {}), .edit (.create "B" (some ⟨13⟩) {}),
        .singletonClassOf core (.object o), .edit (.attachToObject o' "#<Class:#<A>>"),
        .edit (.attachToModule ⟨13⟩ core.cls), .singletonClassOf core (.module ⟨14⟩)]
    let h := (bootstrap (empty : Hierarchy Target)).2.after ops
    h.attached? (.object o) = some ⟨15⟩ ∧ h.attached? (.object o') = some ⟨16⟩ ∧
      h.attached? (.module ⟨13⟩) = some ⟨17⟩ ∧ h.attached? (.module ⟨14⟩) = some ⟨18⟩ ∧
        (h.after [.singletonClassOf core (.module ⟨13⟩)]).Settled (.module ⟨13⟩) ⟨17⟩ ∧
          core.singletonClassOf h .nil = (.error (.singletonForbidden "NilClass"), h) := by
  intro core o o' ops h
  have hops : (bootstrap (empty : Hierarchy Target)).2.Supports ops := by decide +kernel
  obtain ⟨hkept, -, -, -, -, -, hforbidden, -⟩ := attached_once_after hops
  have hmodule : h.attached? (.module ⟨13⟩) = some ⟨17⟩ := by decide +kernel
  have hnil : (h.get? core.nilClass).map (fun r => (r.name, r.forbidsSingletons)) =
      some ("NilClass", true) := by decide +kernel
  obtain ⟨r, hr, hpair⟩ := Option.map_eq_some_iff.mp hnil
  obtain ⟨hname, hforbids⟩ := Prod.mk.inj hpair
  refine ⟨by decide +kernel, by decide +kernel, hmodule, by decide +kernel, hkept _ _ _ hmodule, ?_⟩
  rw [← hname]
  exact hforbidden .nil r hr hforbids

end Hierarchy

end LateBinding
