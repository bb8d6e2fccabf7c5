import LateBinding.Proofs.Hierarchy.Kin
import LateBinding.Proofs.Hierarchy.Listing

namespace LateBinding

variable {τ : Type}

/-- What a record is, and which modules it includes. -/
structure Ties where
  flags : ClassFlags
  includes : List ClassId
deriving DecidableEq

def Record.ties (r : Record τ) : Ties := ⟨r.flags, r.includes⟩

namespace Hierarchy

def ties? (h : Hierarchy τ) (id : ClassId) : Option Ties := (h.get? id).map Record.ties

/-- The singleton class that a value has been given. -/
def attached? (h : Hierarchy τ) : Value → Option ClassId
  | .object o => h.singletonOf? o
  | .module id => h.metaclass? id
  | _ => none

/-- Records keep their flags, their included modules and their singleton classes, and objects keep
theirs. What is included or attached on the way exists, and what is attached is new. -/
structure Grows (h h' : Hierarchy τ) : Prop where
  ties : ∀ {id t}, h.ties? id = some t →
    ∃ t', h'.ties? id = some t' ∧ t'.flags = t.flags ∧ t.includes <+: t'.includes
  included : ∀ {id t' m}, h'.ties? id = some t' → m ∈ t'.includes →
    (∃ t, h.ties? id = some t ∧ m ∈ t.includes) ∨ h'.Knows m
  attached : ∀ {v s}, h.attached? v = some s → h'.attached? v = some s
  fresh : ∀ {v s}, h'.attached? v = some s → h.attached? v = some s ∨
    ¬ h.Knows s ∧ ∃ t, h'.ties? s = some t ∧ t.flags.isSingleton = true
  apart : ∀ {v w s}, h'.attached? v = some s → h'.attached? w = some s →
    h.attached? v = none → h.attached? w = none → v = w

/-- No other record is included, and no other singleton class attached, and no flag is different. -/
structure SameTies (h h' : Hierarchy τ) : Prop where
  ties?_eq : h'.ties? = h.ties?
  attached?_eq : h'.attached? = h.attached?

variable {h h' h'' : Hierarchy τ}

theorem ties?_eq_some_iff {id : ClassId} {t : Ties} :
    h.ties? id = some t ↔ ∃ r, h.get? id = some r ∧ r.ties = t :=
  Option.map_eq_some_iff

theorem Knows.of_ties? {id : ClassId} {t : Ties} (ht : h.ties? id = some t) : h.Knows id := by
  obtain ⟨r, hr, -⟩ := ties?_eq_some_iff.mp ht
  exact .of_get? hr

theorem Knows.ties? {id : ClassId} (hid : h.Knows id) : ∃ t, h.ties? id = some t := by
  obtain ⟨r, hr⟩ := hid.get?
  exact ⟨r.ties, ties?_eq_some_iff.mpr ⟨r, hr, rfl⟩⟩

theorem attached?_congr (hmetaclass : h'.metaclass? = h.metaclass?)
    (hobjects : h'.objectSingletons = h.objectSingletons) : h'.attached? = h.attached? := by
  funext v
  cases v with
  | object o => simp only [attached?, singletonOf?, hobjects]
  | module id => simp only [attached?, hmetaclass]
  | _ => rfl

theorem SameKin.attached?_eq (hsame : h.SameKin h') : h'.attached? = h.attached? := by
  refine attached?_congr ?_ hsame.objects_eq
  funext id
  rw [metaclass?, metaclass?, hsame.kin?_eq]

theorem SameTies.grows (hsame : h.SameTies h') : h.Grows h' where
  ties {id t} ht := ⟨t, by rw [hsame.ties?_eq, ht], rfl, List.prefix_refl _⟩
  included {id t m} ht hm := .inl ⟨t, by rw [← hsame.ties?_eq, ht], hm⟩
  attached {v s} hs := by rw [hsame.attached?_eq, hs]
  fresh {v s} hs := .inl (by rw [← hsame.attached?_eq, hs])
  apart {v w s} hs _ hnone _ := by
    rw [hsame.attached?_eq, hnone] at hs
    cases hs

theorem Grows.refl (h : Hierarchy τ) : h.Grows h := SameTies.grows ⟨rfl, rfl⟩

theorem Grows.knows (hgrows : h.Grows h') {id : ClassId} (hid : h.Knows id) : h'.Knows id := by
  obtain ⟨t, ht⟩ := hid.ties?
  obtain ⟨t', ht', -⟩ := hgrows.ties ht
  exact .of_ties? ht'

theorem Grows.trans (hfirst : h.Grows h') (hthen : h'.Grows h'') : h.Grows h'' where
  ties {id t} ht := by
    obtain ⟨t', ht', hflags, hincludes⟩ := hfirst.ties ht
    obtain ⟨t'', ht'', hflags', hincludes'⟩ := hthen.ties ht'
    exact ⟨t'', ht'', hflags'.trans hflags, hincludes.trans hincludes'⟩
  included {id t'' m} ht'' hm := by
    rcases hthen.included ht'' hm with ⟨t', ht', hm'⟩ | hknown
    · exact (hfirst.included ht' hm').imp_right hthen.knows
    · exact .inr hknown
  attached hs := hthen.attached (hfirst.attached hs)
  fresh {v s} hs := by
    rcases hthen.fresh hs with hs' | ⟨hnew, hflag⟩
    · refine (hfirst.fresh hs').imp_right fun ⟨hnew, t, ht, hflag⟩ => ?_
      obtain ⟨t', ht', hflags, -⟩ := hthen.ties ht
      exact ⟨hnew, t', ht', by rw [hflags, hflag]⟩
    · exact .inr ⟨fun hknown => hnew (hfirst.knows hknown), hflag⟩
  apart {v w s} hv hw hv₀ hw₀ := by
    -- What is attached in between exists in between, so it is not attached again later.
    have hlater {x y : Value} (hx : h'.attached? x = some s) (hx₀ : h.attached? x = none)
        (hy : h''.attached? y = some s) : h'.attached? y = some s := by
      rcases hthen.fresh hy with hy' | ⟨hnew, -⟩
      · exact hy'
      · rcases hfirst.fresh hx with hold | ⟨-, t, ht, -⟩
        · rw [hx₀] at hold
          cases hold
        · exact absurd (.of_ties? ht) hnew
    have hback {x : Value} (hx : h''.attached? x = some s) :
        h'.attached? x = some s ∨ h'.attached? x = none := by
      cases hx' : h'.attached? x with
      | none => exact .inr rfl
      | some s' => exact .inl ((hthen.attached hx').symm.trans hx)
    rcases hback hv with hv' | hv'
    · exact hfirst.apart hv' (hlater hv' hv₀ hw) hv₀ hw₀
    · rcases hback hw with hw' | hw'
      · exact hfirst.apart (hlater hw' hw₀ hv) hw' hv₀ hw₀
      · exact hthen.apart hv hw hv' hw'

theorem SameTies.trans (hfirst : h.SameTies h') (hthen : h'.SameTies h'') : h.SameTies h'' where
  ties?_eq := hthen.ties?_eq.trans hfirst.ties?_eq
  attached?_eq := hthen.attached?_eq.trans hfirst.attached?_eq

theorem sameTies_of_forget_eq (hforget : h'.forget = h.forget) : h.SameTies h' where
  ties?_eq := by
    funext id
    exact map_get?_of_forget_eq (fun _ => rfl) hforget id
  attached?_eq := (sameKin_of_forget_eq hforget).attached?_eq

theorem metaclass?_eq_join (h : Hierarchy τ) (id : ClassId) :
    h.metaclass? id = ((h.get? id).map Record.metaclass).join := by
  rw [metaclass?, kin?]
  cases h.get? id <;> rfl

theorem sameTies_of_map_eq (hties : ∀ id, (h'.get? id).map Record.ties = (h.get? id).map Record.ties)
    (hmetaclass : ∀ id, (h'.get? id).map Record.metaclass = (h.get? id).map Record.metaclass)
    (hobjects : h'.objectSingletons = h.objectSingletons) : h.SameTies h' := by
  refine ⟨funext hties, attached?_congr (funext fun id => ?_) hobjects⟩
  rw [metaclass?_eq_join, hmetaclass, ← metaclass?_eq_join]

theorem map_get?_modify {α : Type} {g : Record τ → α} {f : Record τ → Record τ}
    (hf : ∀ r, g (f r) = g r) (h : Hierarchy τ) (id x : ClassId) :
    ((h.modify id f).get? x).map g = (h.get? x).map g := by
  rw [get?_modify]
  split
  · simp [Function.comp_def, hf]
  · rfl

theorem sameTies_modify {f : Record τ → Record τ} (hties : ∀ r, (f r).ties = r.ties)
    (hmetaclass : ∀ r, (f r).metaclass = r.metaclass) (h : Hierarchy τ) (id : ClassId) :
    h.SameTies (h.modify id f) :=
  sameTies_of_map_eq (map_get?_modify hties h id) (map_get?_modify hmetaclass h id) rfl

theorem sameTies_publishGraph (h : Hierarchy τ) : h.SameTies h.publishGraph := by
  refine sameTies_of_map_eq (fun id => ?_) (fun id => ?_) rfl
  · rw [get?_publishGraph, Option.map_map]
    rfl
  · rw [get?_publishGraph, Option.map_map]
    rfl

theorem sameTies_stampIfBelow (h : Hierarchy τ) (owner : ClassId) (generation : Nat) (id : ClassId) :
    h.SameTies (stampIfBelow owner generation h id) := by
  have hstamp (h : Hierarchy τ) : h.SameTies (h.stamp generation id) := by
    apply sameTies_modify <;> exact fun _ => rfl
  have hasked : h.SameTies (h.isAncestor id owner).2 :=
    sameTies_of_forget_eq (h.forget_ancestors id)
  rw [stampIfBelow]
  split
  · exact hstamp h
  · simp only
    split
    · exact hasked.trans (hstamp _)
    · exact hasked

theorem sameTies_publishTable (h : Hierarchy τ) (owner : ClassId) (generation : Nat) :
    h.SameTies (h.publishTable owner generation) := by
  have hfold (ids : List ClassId) (g : Hierarchy τ) :
      g.SameTies (ids.foldl (stampIfBelow owner generation) g) := by
    induction ids generalizing g with
    | nil => exact ⟨rfl, rfl⟩
    | cons id ids ih => exact (g.sameTies_stampIfBelow owner generation id).trans (ih _)
  have hdated : h.SameTies { h with generation } := ⟨rfl, rfl⟩
  exact hdated.trans (hfold h.ids _)

theorem sameTies_write (h : Hierarchy τ) (m : Method τ) : h.SameTies (h.write m) := by
  refine SameTies.trans ?_ (sameTies_publishTable ..)
  apply sameTies_modify <;> exact fun _ => rfl

theorem sameTies_revise (h : Hierarchy τ) (owner : ClassId) (name : Symbol)
    (entry : Method τ → Nat → Method τ) : h.SameTies (h.revise owner name entry).2 := by
  have hasked : h.SameTies (h.ancestors owner).2 := sameTies_of_forget_eq (h.forget_ancestors owner)
  rw [revise]
  split
  · exact ⟨rfl, rfl⟩
  · split
    · rename_i heq
      obtain rfl := congrArg Prod.snd heq
      exact hasked
    · rename_i m h₁ heq
      obtain rfl := congrArg Prod.snd heq
      exact hasked.trans (sameTies_write ..)

theorem sameTies_table {e : Edit τ} {owner : ClassId} (he : e.table? = some owner) :
    h.SameTies (e.apply h).2 := by
  cases e with
  | define owner name visibility target flags =>
    simp only [Edit.apply, define]
    split
    · exact ⟨rfl, rfl⟩
    · exact h.sameTies_write ..
  | remove owner name =>
    simp only [Edit.apply, Edit.finished, remove]
    split
    · exact ⟨rfl, rfl⟩
    · split
      · refine SameTies.trans ?_ (sameTies_publishTable ..)
        apply sameTies_modify <;> exact fun _ => rfl
      · exact ⟨rfl, rfl⟩
  | undefine | addAlias | setVisibility => exact h.sameTies_revise ..
  | _ => cases he

theorem forget_wouldCycle (h : Hierarchy τ) (descendant ancestor : ClassId) :
    (h.wouldCycle descendant ancestor).2.forget = h.forget := by
  rw [wouldCycle]
  split
  · rfl
  · exact h.forget_ancestors ancestor

theorem sameTies_setSuperclass (h : Hierarchy τ) (cls superclass : ClassId) :
    h.SameTies (h.setSuperclass cls superclass).2 := by
  have hasked : h.SameTies (h.wouldCycle cls superclass).2 :=
    sameTies_of_forget_eq (h.forget_wouldCycle cls superclass)
  rw [setSuperclass]
  split
  · exact ⟨rfl, rfl⟩
  · exact ⟨rfl, rfl⟩
  · split
    · exact ⟨rfl, rfl⟩
    · split
      · rename_i heq
        obtain rfl := congrArg Prod.snd heq
        exact hasked
      · rename_i heq
        obtain rfl := congrArg Prod.snd heq
        refine hasked.trans (SameTies.trans ?_ (sameTies_publishGraph _))
        apply sameTies_modify <;> exact fun _ => rfl

/-- A new record, which may be the singleton class of one value. -/
private theorem grows_of_new (flags : ClassFlags) (v? : Option Value)
    (hties : h'.ties? = Function.update h.ties? ⟨h.size⟩ (some ⟨flags, []⟩))
    (hattached : ∀ {x s}, h'.attached? x = some s ↔
      h.attached? x = some s ∨ x ∈ v? ∧ s = ⟨h.size⟩)
    (hflag : ∀ v ∈ v?, flags.isSingleton = true) : h.Grows h' where
  ties {id t} ht := by
    have hne : id ≠ ⟨h.size⟩ := by
      rintro rfl
      exact h.not_knows_size (.of_ties? ht)
    exact ⟨t, by rw [hties, Function.update_of_ne hne, ht], rfl, List.prefix_refl _⟩
  included {id t m} ht hm := by
    rw [hties, Function.update_apply] at ht
    split at ht
    · obtain rfl := Option.some.inj ht
      cases hm
    · exact .inl ⟨t, ht, hm⟩
  attached hs := hattached.mpr (.inl hs)
  fresh {v s} hs := by
    refine (hattached.mp hs).imp_right ?_
    rintro ⟨hv, rfl⟩
    exact ⟨h.not_knows_size, _, by rw [hties, Function.update_self], hflag v hv⟩
  apart {v w s} hv hw hv₀ hw₀ := by
    have hnew {x : Value} (hx : h'.attached? x = some s) (hx₀ : h.attached? x = none) :
        x ∈ v? := by
      rcases hattached.mp hx with hold | ⟨hmem, -⟩
      · rw [hx₀] at hold
        cases hold
      · exact hmem
    exact Option.mem_unique (hnew hv hv₀) (hnew hw hw₀)

theorem ties?_create (h : Hierarchy τ) (name : String) (superclass : Option ClassId)
    (flags : ClassFlags) : (h.create name superclass flags).2.ties? =
      Function.update h.ties? ⟨h.size⟩ (some ⟨flags, []⟩) := by
  funext id
  rw [ties?, get?_create, Function.update_apply]
  split <;> rfl

theorem metaclass?_create (h : Hierarchy τ) (name : String) (superclass : Option ClassId)
    (flags : ClassFlags) : (h.create name superclass flags).2.metaclass? = h.metaclass? := by
  funext id
  rw [metaclass?, kin?_create, Function.update_apply]
  split
  · rename_i hid
    rw [hid, metaclass?, kin?_size]
    rfl
  · rfl

theorem grows_create (h : Hierarchy τ) (name : String) (superclass : Option ClassId)
    (flags : ClassFlags) : h.Grows (h.create name superclass flags).2 := by
  refine grows_of_new flags none (h.ties?_create name superclass flags) (fun {x s} => ?_)
    fun v hv => by cases hv
  rw [attached?_congr (h.metaclass?_create name superclass flags) rfl]
  simp

/-- The object has its singleton class, and nothing else has another one. -/
theorem attached?_attachToObject {o : ObjectRef} (hnone : h.singletonOf? o = none) (name : String)
    {x : Value} {s : ClassId} : (h.attachToObject o name).2.attached? x = some s ↔
      h.attached? x = some s ∨ x = .object o ∧ s = ⟨h.size⟩ := by
  have hmetaclass := h.metaclass?_create name (some o.declaredClass) { isSingleton := true }
  rw [attachToObject, hnone]
  cases x with
  | object o' =>
    simp only [attached?, singletonOf?, Table.get?_insert, Value.object.injEq]
    by_cases ho : o = o'
    · subst ho
      rw [singletonOf?] at hnone
      simp [hnone, eq_comm, create]
    · simp [ho, Ne.symm ho, create]
  | module id =>
    have hsame := congrFun hmetaclass id
    simp only [attached?, ← hsame]
    simp [metaclass?, kin?, get?]
  | _ => simp [attached?]

theorem grows_attachToObject (h : Hierarchy τ) (o : ObjectRef) (name : String) :
    h.Grows (h.attachToObject o name).2 := by
  cases hnone : h.singletonOf? o with
  | some s =>
    rw [attachToObject, hnone]
    exact .refl h
  | none =>
    refine grows_of_new { isSingleton := true } (some (.object o)) ?_ (fun {x s} => ?_) fun _ _ => rfl
    · rw [attachToObject, hnone]
      exact h.ties?_create name (some o.declaredClass) { isSingleton := true }
    · rw [attached?_attachToObject hnone, Option.mem_some_iff, eq_comm (a := x)]

/-- The class or module has its singleton class, and nothing else has another one. -/
theorem attached?_attachToModule {module : ClassId} {k : Kin} (hk : h.kin? module = some k)
    (hnone : k.metaclass = none) (superclass : ClassId) {x : Value} {s : ClassId} :
    (h.attachToModule module superclass).2.attached? x = some s ↔
      h.attached? x = some s ∨ x = .module module ∧ s = ⟨h.size⟩ := by
  obtain ⟨m, hm, -⟩ | ⟨-, -, hobjects, hkin⟩ := attachToModule_cases hk superclass
  · rw [hnone] at hm
    cases hm
  · cases x with
    | object o => simp [attached?, singletonOf?, hobjects]
    | module id =>
      simp only [attached?, metaclass?, hkin, Function.update_apply, Value.module.injEq]
      by_cases hid : id = module
      · subst hid
        simp [hk, hnone, eq_comm]
      · by_cases hsize : id = ⟨h.size⟩
        · subst hsize
          simp [hid, kin?_size]
        · simp [hid, hsize]
    | _ => simp [attached?]

theorem grows_attachToModule (h : Hierarchy τ) (module superclass : ClassId) :
    h.Grows (h.attachToModule module superclass).2 := by
  cases hr : h.get? module with
  | none =>
    rw [attachToModule, hr]
    exact .refl h
  | some r =>
    cases hnone : r.metaclass with
    | some m =>
      simp only [attachToModule, hr, hnone]
      exact .refl h
    | none =>
      have hk : h.kin? module = some r.kin := kin?_eq_some_iff.mpr ⟨r, hr, rfl⟩
      refine grows_of_new { isSingleton := true } (some (.module module)) ?_ (fun {x s} => ?_)
        fun _ _ => rfl
      · simp only [attachToModule, hr, hnone]
        rw [← h.ties?_create s!"#<Class:{r.name}>" (some superclass) { isSingleton := true }]
        funext id
        apply map_get?_modify
        exact fun _ => rfl
      · rw [attached?_attachToModule hk hnone, Option.mem_some_iff, eq_comm (a := x)]

/-- A module that exists may be included. -/
theorem grows_include (h : Hierarchy τ) (target : ClassId) {module : ClassId}
    (hmodule : h.Knows module) :
    h.Grows (h.modify target fun r => { r with includes := r.includes ++ [module] }) := by
  have hties (id : ClassId) :
      (h.modify target fun r => { r with includes := r.includes ++ [module] }).ties? id =
        if target = id then (h.ties? id).map fun t => ⟨t.flags, t.includes ++ [module]⟩
        else h.ties? id := by
    simp only [ties?, get?_modify]
    split
    · simp only [Option.map_map]
      rfl
    · rfl
  have hattached :
      (h.modify target fun r => { r with includes := r.includes ++ [module] }).attached? =
        h.attached? := by
    refine attached?_congr (funext fun id => ?_) rfl
    rw [metaclass?_eq_join, metaclass?_eq_join, map_get?_modify]
    exact fun _ => rfl
  refine ⟨fun {id t} ht => ?_, fun {id t m} ht hm => ?_, fun {v s} hs => by rwa [hattached],
    fun {v s} hs => .inl (by rwa [← hattached]), fun {v w s} hv _ hnone _ => ?_⟩
  · rw [hties, ht]
    split
    · exact ⟨_, rfl, rfl, List.prefix_append ..⟩
    · exact ⟨t, rfl, rfl, List.prefix_refl _⟩
  · rw [hties] at ht
    split at ht
    · obtain ⟨t₀, ht₀, rfl⟩ := Option.map_eq_some_iff.mp ht
      rcases List.mem_append.mp hm with hold | hnew
      · exact .inl ⟨t₀, ht₀, hold⟩
      · obtain rfl := List.mem_singleton.mp hnew
        exact .inr (by rwa [Knows, size_modify])
    · exact .inl ⟨t, ht, hm⟩
  · rw [hattached, hnone] at hv
    cases hv

theorem grows_addInclude (h : Hierarchy τ) (target module : ClassId) :
    h.Grows (h.addInclude target module).2 := by
  have hasked : (h.isAncestor target module).2.forget = h.forget := h.forget_ancestors target
  rw [addInclude]
  split
  · exact .refl h
  · exact .refl h
  · rename_i m hm
    split
    · split
      · rename_i h₁ heq
        obtain rfl := congrArg Prod.snd heq
        exact (sameTies_of_forget_eq hasked).grows
      · rename_i h₁ heq
        obtain rfl := congrArg Prod.snd heq
        have hagain := (h.isAncestor target module).2.forget_wouldCycle target module
        have hrefused := sameTies_of_forget_eq (hagain.trans hasked)
        split
        · rename_i h₂ heq'
          obtain rfl := congrArg Prod.snd heq'
          exact hrefused.grows
        · rename_i h₂ heq'
          obtain rfl := congrArg Prod.snd heq'
          have hknown := (knows_iff_of_forget_eq (hagain.trans hasked)).mpr (.of_get? hm)
          exact (hrefused.grows.trans (grows_include _ target hknown)).trans
            (sameTies_publishGraph _).grows
    · exact .refl h

end Hierarchy

namespace CoreClasses

variable {core : CoreClasses} {h h' : Hierarchy τ}

theorem grows_metaclassWithin {depth : Nat} {id : ClassId} {made : Except Fault ClassId}
    (hmade : core.metaclassWithin depth h id = some (made, h')) : h.Grows h' := by
  induction depth generalizing h h' id made with
  | zero => cases hmade
  | succ depth ih =>
    have hattach {g : Hierarchy τ} {above : ClassId}
        (heq : some (g.attachToModule id above) = some (made, h')) : g.Grows h' := by
      have hgrows := g.grows_attachToModule id above
      rwa [Option.some.inj heq] at hgrows
    rw [metaclassWithin] at hmade
    split at hmade
    · obtain ⟨-, rfl⟩ := Prod.mk.inj (Option.some.inj hmade)
      exact .refl h
    · split at hmade
      · obtain ⟨-, rfl⟩ := Prod.mk.inj (Option.some.inj hmade)
        exact .refl h
      · split at hmade
        · exact hattach hmade
        · split at hmade
          · exact hattach hmade
          · obtain ⟨⟨above, h₁⟩, hup, hrest⟩ := Option.bind_eq_some_iff.mp hmade
            cases above with
            | error fault =>
              obtain ⟨-, rfl⟩ := Prod.mk.inj (Option.some.inj hrest)
              exact ih hup
            | ok above => exact (ih hup).trans (hattach hrest)

theorem grows_singletonClassOf (core : CoreClasses) (h : Hierarchy τ) (v : Value) :
    h.Grows (core.singletonClassOf h v).2 := by
  rw [singletonClassOf]
  split
  · exact .refl h
  · rename_i r hr
    split
    · exact .refl h
    · split
      · exact h.grows_attachToObject ..
      · rename_i id
        rw [metaclassOf]
        cases hmade : core.metaclassWithin (h.size + 1) h id with
        | none => exact .refl h
        | some made => exact grows_metaclassWithin hmade
      · exact .refl h

end CoreClasses

namespace Hierarchy

variable {h : Hierarchy τ}

theorem grows_apply (h : Hierarchy τ) (e : Edit τ) : h.Grows (e.apply h).2 := by
  cases e with
  | create name superclass flags => exact h.grows_create name superclass flags
  | attachToObject o name => exact h.grows_attachToObject o name
  | attachToModule module superclass => exact h.grows_attachToModule module superclass
  | define | remove | undefine | addAlias | setVisibility => exact (sameTies_table rfl).grows
  | addInclude target module => exact h.grows_addInclude target module
  | setSuperclass cls superclass => exact (h.sameTies_setSuperclass cls superclass).grows
  | ancestors id => exact (sameTies_of_forget_eq (h.forget_ancestors id)).grows
  | isAncestor descendant ancestor =>
    exact (sameTies_of_forget_eq (h.forget_ancestors descendant)).grows
  | record id => exact .refl h

theorem grows_operation (h : Hierarchy τ) (op : Operation τ) : h.Grows (op.apply h).2 := by
  cases op with
  | edit e => exact h.grows_apply e
  | singletonClassOf core v => exact core.grows_singletonClassOf h v
  | walk id name => exact (sameTies_of_forget_eq (h.forget_ancestors id)).grows
  | walkCached cache id name =>
    simp only [Operation.apply, walkCached]
    split
    · exact .refl h
    · split
      · exact .refl h
      · exact (sameTies_of_forget_eq (h.forget_ancestors id)).grows
  | effectiveClass core v => exact .refl h
  | describe core v => exact .refl h
  | look => exact .refl h

/-- Whatever operations are carried out, nothing of what lasts is taken back. -/
theorem grows_after (h : Hierarchy τ) (ops : List (Operation τ)) : h.Grows (h.after ops) := by
  induction ops generalizing h with
  | nil => exact .refl h
  | cons op ops ih => exact (h.grows_operation op).trans (ih _)

/-- The modules that are included exist, and so do the singleton classes. -/
structure Tethered (h : Hierarchy τ) : Prop where
  included : ∀ {id t m}, h.ties? id = some t → m ∈ t.includes → h.Knows m
  attached : ∀ {v s}, h.attached? v = some s → h.Knows s

theorem Tethered.of_grows {h' : Hierarchy τ} (hh : h.Tethered) (hgrows : h.Grows h') :
    h'.Tethered where
  included {id t m} ht hm := by
    rcases hgrows.included ht hm with ⟨t₀, ht₀, hm₀⟩ | hknown
    · exact hgrows.knows (hh.included ht₀ hm₀)
    · exact hknown
  attached {v s} hs := by
    rcases hgrows.fresh hs with hold | ⟨-, t, ht, -⟩
    · exact hgrows.knows (hh.attached hold)
    · exact .of_ties? ht

theorem tethered_empty : (empty : Hierarchy τ).Tethered where
  included ht _ := by cases ht
  attached {v s} hs := by cases v <;> cases hs

/-- In every state that operations lead to from nothing, what is included or attached exists. -/
theorem tethered_after (ops : List (Operation τ)) : (empty.after ops : Hierarchy τ).Tethered :=
  tethered_empty.of_grows (grows_after empty ops)

end Hierarchy

end LateBinding
