import LateBinding.World
import LateBinding.Proofs.CallSite
import LateBinding.Proofs.Bootstrap
import LateBinding.Proofs.Lookup.Cache

namespace LateBinding

namespace World

/-- What can be seen of a world: everything but options, caches, counters, and what call sites
remember. -/
structure Face where
  hierarchy : Hierarchy Target
  core : CoreClasses
  safepoints : Safepoints Script
  foreigns : Table ForeignRef ForeignObject
  instanceVariables : Table (ObjectRef × Symbol) Value
  kept : Array (Method Target)
  notebook : Notebook
  serial : Nat
  modes : Array Mode

/-- The modes of the call sites, by their numbers. -/
def modes (w : World) : Array Mode := w.sites.map CallSite.mode

/-- What can be seen of a world. -/
def face (w : World) : Face :=
  { hierarchy := w.hierarchy, core := w.core, safepoints := w.safepoints, foreigns := w.foreigns,
    instanceVariables := w.instanceVariables, kept := w.kept, notebook := w.notebook,
    serial := w.serial, modes := w.modes }

/-- The second world differs from the first one in what is there for speed and observation only. -/
structure Alike (w w' : World) : Prop where
  hierarchy : w'.hierarchy = w.hierarchy
  core : w'.core = w.core
  safepoints : w'.safepoints = w.safepoints
  foreigns : w'.foreigns = w.foreigns
  instanceVariables : w'.instanceVariables = w.instanceVariables
  kept : w'.kept = w.kept
  notebook : w'.notebook = w.notebook
  serial : w'.serial = w.serial
  modes : w'.modes = w.modes

/-- Everything that is remembered is right, and everything that is referred to exists. -/
structure Sound (w : World) : Prop where
  hierarchy : w.hierarchy.Sound
  core : w.core.KnownIn w.hierarchy
  lookupCache : w.lookupCache.Sound w.hierarchy
  site_id : ∀ {i : Nat} {s : CallSite Target}, w.sites[i]? = some s → s.id = i
  site : ∀ {i : Nat} {s : CallSite Target}, w.sites[i]? = some s → s.Sound w.hierarchy

/-- The record that a request makes has no superclass or one that exists. -/
def Admits (w : World) (e : Edit Body) : Prop :=
  (e.map (Target.mk w.serial)).NamesKnownSuperclass w.hierarchy

instance (w : World) (e : Edit Body) : Decidable (w.Admits e) :=
  inferInstanceAs (Decidable (Edit.NamesKnownSuperclass ..))

variable {w w' w'' : World} {h : Hierarchy Target}

theorem Alike.refl (w : World) : w.Alike w := ⟨rfl, rfl, rfl, rfl, rfl, rfl, rfl, rfl, rfl⟩

theorem Alike.symm (hw : w.Alike w') : w'.Alike w where
  hierarchy := hw.hierarchy.symm
  core := hw.core.symm
  safepoints := hw.safepoints.symm
  foreigns := hw.foreigns.symm
  instanceVariables := hw.instanceVariables.symm
  kept := hw.kept.symm
  notebook := hw.notebook.symm
  serial := hw.serial.symm
  modes := hw.modes.symm

theorem Alike.trans (hfirst : w.Alike w') (hthen : w'.Alike w'') : w.Alike w'' where
  hierarchy := hthen.hierarchy.trans hfirst.hierarchy
  core := hthen.core.trans hfirst.core
  safepoints := hthen.safepoints.trans hfirst.safepoints
  foreigns := hthen.foreigns.trans hfirst.foreigns
  instanceVariables := hthen.instanceVariables.trans hfirst.instanceVariables
  kept := hthen.kept.trans hfirst.kept
  notebook := hthen.notebook.trans hfirst.notebook
  serial := hthen.serial.trans hfirst.serial
  modes := hthen.modes.trans hfirst.modes

theorem Alike.withHierarchy (hw : w.Alike w') (h : Hierarchy Target) :
    { w with hierarchy := h }.Alike { w' with hierarchy := h } :=
  { hw with hierarchy := rfl }

theorem Alike.face_eq (hw : w.Alike w') : w'.face = w.face := by
  simp only [face, hw.hierarchy, hw.core, hw.safepoints, hw.foreigns, hw.instanceVariables, hw.kept,
    hw.notebook, hw.serial, hw.modes]

theorem getElem?_modes (w : World) (i : Nat) : w.modes[i]? = (w.sites[i]?).map CallSite.mode :=
  Array.getElem?_map

theorem Alike.size_sites (hw : w.Alike w') : w'.sites.size = w.sites.size := by
  simpa [World.modes] using congrArg Array.size hw.modes

theorem Alike.mode_eq (hw : w.Alike w') (i : Nat) :
    (w'.sites[i]?).map CallSite.mode = (w.sites[i]?).map CallSite.mode := by
  rw [← getElem?_modes, hw.modes, getElem?_modes]

theorem Alike.effectiveClass_eq (hw : w.Alike w') (v : Value) :
    w'.effectiveClass v = w.effectiveClass v := by
  rw [effectiveClass, effectiveClass, hw.core, hw.hierarchy]

/-- Whether a world is sound does not depend on what else it holds. -/
theorem Sound.of_eq (hw : w.Sound) (hhierarchy : w'.hierarchy = w.hierarchy)
    (hcore : w'.core = w.core) (hcache : w'.lookupCache = w.lookupCache)
    (hsites : w'.sites = w.sites) : w'.Sound := by
  refine ⟨?_, ?_, ?_, ?_, ?_⟩
  · rw [hhierarchy]
    exact hw.hierarchy
  · rw [hhierarchy, hcore]
    exact hw.core
  · rw [hhierarchy, hcache]
    exact hw.lookupCache
  · intro i s hs
    rw [hsites] at hs
    exact hw.site_id hs
  · intro i s hs
    rw [hsites] at hs
    rw [hhierarchy]
    exact hw.site hs

theorem Sound.clearCache (hw : w.Sound) :
    { w with lookupCache := w.lookupCache.clear }.Sound :=
  ⟨hw.hierarchy, hw.core, LookupCache.sound_clear _ _, hw.site_id, hw.site⟩

theorem Sound.of_evolves (hw : w.Sound) (hev : w.hierarchy.Evolves h) :
    { w with hierarchy := h }.Sound where
  hierarchy := hev.sound
  core := hw.core.of_evolves hev
  lookupCache := hw.lookupCache.of_evolves hev
  site_id := hw.site_id
  site hs := (hw.site hs).of_evolves hev

theorem Sound.evolves_ancestors (hw : w.Sound) (id : ClassId) :
    w.hierarchy.Evolves (w.hierarchy.ancestors id).2 :=
  hw.hierarchy.evolves_of_recalls (hw.hierarchy.recalls_ancestors id)

/-- A walk comes to what the graph and the tables determine, through the cache or not, and makes the
hierarchy remember the ancestors of its first record. -/
theorem Sound.walk_spec (hw : w.Sound) (id : ClassId) (name : Symbol) :
    (w.walk id name).1 = w.hierarchy.view id name ∧
      { w with hierarchy := (w.hierarchy.ancestors id).2 }.Alike (w.walk id name).2 ∧
        (w.walk id name).2.Sound := by
  have hafter := hw.of_evolves (hw.evolves_ancestors id)
  rw [walk]
  split
  · obtain ⟨hwalk, hhierarchy, hcache⟩ := hw.hierarchy.walkCached_spec hw.lookupCache id name
    simp only [hwalk, hhierarchy]
    exact ⟨trivial, { Alike.refl _ with },
      ⟨hafter.hierarchy, hafter.core, hcache, hafter.site_id, hafter.site⟩⟩
  · simp only [hw.hierarchy.walk_eq]
    exact ⟨trivial, .refl _, hafter⟩

theorem Sound.lookup_spec (hw : w.Sound) (id : ClassId) (name : Symbol) (mode : Mode) :
    (w.lookup id name mode).1 = (w.hierarchy.view id name).lookup mode ∧
      { w with hierarchy := (w.hierarchy.ancestors id).2 }.Alike (w.lookup id name mode).2 ∧
        (w.lookup id name mode).2.Sound := by
  obtain ⟨hwalk, halike, hsound⟩ := hw.walk_spec id name
  simp only [lookup, hwalk]
  exact ⟨trivial, halike, hsound⟩

theorem Sound.findMethod_spec (hw : w.Sound) (receiver : Value) (name : Symbol) :
    (w.findMethod receiver name).1 =
        (w.hierarchy.view (w.effectiveClass receiver) name).lookupAny.method? ∧
      { w with hierarchy := (w.hierarchy.ancestors (w.effectiveClass receiver)).2 }.Alike
          (w.findMethod receiver name).2 ∧
        (w.findMethod receiver name).2.Sound := by
  obtain ⟨hwalk, halike, hsound⟩ := hw.walk_spec (w.effectiveClass receiver) name
  simp only [findMethod, lookupAny, hwalk]
  exact ⟨trivial, halike, hsound⟩

theorem Sound.evolves_edit (hw : w.Sound) {e : Edit Body} (he : w.Admits e) :
    w.hierarchy.Evolves (w.edit e).2.hierarchy :=
  hw.hierarchy.evolves_apply he

theorem Sound.edit (hw : w.Sound) {e : Edit Body} (he : w.Admits e) : (w.edit e).2.Sound := by
  have hafter := hw.of_evolves (hw.evolves_edit he)
  exact hafter.of_eq rfl rfl rfl rfl

theorem Alike.edit (hw : w.Alike w') (e : Edit Body) :
    (w'.edit e).1 = (w.edit e).1 ∧ (w.edit e).2.Alike (w'.edit e).2 := by
  simp only [World.edit, hw.hierarchy, hw.serial]
  exact ⟨trivial, { hw with hierarchy := rfl, serial := rfl }⟩

theorem Alike.admits_iff (hw : w.Alike w') (e : Edit Body) : w'.Admits e ↔ w.Admits e := by
  rw [Admits, Admits, hw.hierarchy, hw.serial]

theorem editAll_induction {P : World → Prop} {es : List (Edit Body)}
    (hedit : ∀ w, ∀ e ∈ es, P w → P (w.edit e).2) (hw : P w) : P (w.editAll es).2 := by
  induction es generalizing w with
  | nil => exact hw
  | cons e es ih =>
    have hfirst := hedit w e (by simp) hw
    rw [World.editAll]
    split
    · rename_i w₁ hmade
      rw [hmade] at hfirst
      exact ih (fun w e he => hedit w e (by simp [he])) hfirst
    · rename_i w₁ hrefused
      rw [hrefused] at hfirst
      exact hfirst

theorem Alike.editAll (hw : w.Alike w') (es : List (Edit Body)) :
    (w.editAll es).2.Alike (w'.editAll es).2 := by
  induction es generalizing w w' with
  | nil => exact hw
  | cons e es ih =>
    obtain ⟨hsame, halike⟩ := hw.edit e
    rw [World.editAll, World.editAll]
    generalize w.edit e = edited at hsame halike
    generalize w'.edit e = edited' at hsame halike
    obtain ⟨outcome, w₁⟩ := edited
    obtain ⟨outcome', w₁'⟩ := edited'
    obtain rfl : outcome' = outcome := hsame
    cases outcome' with
    | ok => exact ih halike
    | error => exact halike

theorem Sound.answer (hw : w.Sound) (q : Query) : (w.answer q).2.Sound := by
  cases q with
  | findMethod receiver name => exact (hw.findMethod_spec receiver name).2.2
  | keepMethod receiver name =>
    exact (hw.findMethod_spec receiver name).2.2.of_eq rfl rfl rfl rfl
  | singletonClassOf v =>
    exact hw.of_evolves (CoreClasses.evolves_singletonClassOf hw.hierarchy hw.core v)
  | _ => exact hw.of_eq rfl rfl rfl rfl

theorem Sound.findMethod_alike (hw : w.Sound) (hw' : w'.Sound) (halike : w.Alike w')
    (receiver : Value) (name : Symbol) :
    (w'.findMethod receiver name).1 = (w.findMethod receiver name).1 ∧
      (w.findMethod receiver name).2.Alike (w'.findMethod receiver name).2 := by
  obtain ⟨hfound, hleft, -⟩ := hw.findMethod_spec receiver name
  obtain ⟨hfound', hleft', -⟩ := hw'.findMethod_spec receiver name
  rw [halike.effectiveClass_eq, halike.hierarchy] at hfound' hleft'
  exact ⟨hfound'.trans hfound.symm, hleft.symm.trans ((halike.withHierarchy _).trans hleft')⟩

theorem Alike.keep (hw : w.Alike w') (found : Option (Method Target)) :
    (w.keep found).Alike (w'.keep found) :=
  { hw with kept := congrArg (· ++ found.toArray) hw.kept }

theorem Sound.answer_alike (hw : w.Sound) (hw' : w'.Sound) (halike : w.Alike w') (q : Query) :
    (w'.answer q).1 = (w.answer q).1 ∧ (w.answer q).2.Alike (w'.answer q).2 := by
  cases q with
  | findMethod receiver name =>
    obtain ⟨hfound, hafter⟩ := hw.findMethod_alike hw' halike receiver name
    exact ⟨congrArg (Option.map Method.info) hfound, hafter⟩
  | keepMethod receiver name =>
    obtain ⟨hfound, hafter⟩ := hw.findMethod_alike hw' halike receiver name
    simp only [World.answer, hfound, hafter.kept]
    exact ⟨rfl, hafter.keep _⟩
  | effectiveClass receiver => exact ⟨halike.effectiveClass_eq receiver, halike⟩
  | classOf v =>
    simp only [World.answer, halike.core, halike.hierarchy]
    exact ⟨rfl, halike⟩
  | describe v =>
    simp only [World.answer, halike.core, halike.hierarchy]
    exact ⟨rfl, halike⟩
  | singletonClassOf v =>
    have hmade : w'.core.singletonClassOf w'.hierarchy v =
        w.core.singletonClassOf w.hierarchy v := by rw [halike.core, halike.hierarchy]
    have houtcome := congrArg Prod.fst hmade
    have hhierarchy := congrArg Prod.snd hmade
    exact ⟨houtcome, { halike with hierarchy := hhierarchy }⟩
  | getVariable o name =>
    simp only [World.answer, getVariable, halike.instanceVariables]
    exact ⟨rfl, halike⟩
  | setVariable o name v =>
    simp only [World.answer, setVariable, halike.instanceVariables]
    exact ⟨rfl, { halike with instanceVariables := rfl }⟩
  | freshText text =>
    simp only [World.answer, freshText, halike.serial]
    exact ⟨rfl, { halike with serial := rfl }⟩
  | note change =>
    simp only [World.answer, halike.notebook]
    exact ⟨rfl, { halike with notebook := rfl }⟩

/-- The world in which the core classes have just been made. -/
def withCore (w : World) : World :=
  { w with
    hierarchy := (CoreClasses.bootstrap w.hierarchy).2
    core := (CoreClasses.bootstrap w.hierarchy).1
    notebook := w.notebook.bindClasses (CoreClasses.bootstrap w.hierarchy).1.named }

private theorem start_eq (options : Options) :
    start options = ((void options).withCore.editAll
      (Kernel.definitions (void options).withCore.core)).2 := by
  rw [start, bootstrap, withCore]
  generalize CoreClasses.bootstrap (void options).hierarchy = made
  rfl

/-- What holds when the core classes have been made, and lasts when a kernel method is defined, holds
at the beginning. -/
theorem start_induction {P : World → Prop} {options : Options}
    (hdefine : ∀ w core, ∀ e ∈ Kernel.definitions core, P w → P (w.edit e).2)
    (hcore : P (void options).withCore) : P (start options) := by
  rw [start_eq]
  exact editAll_induction (fun w => hdefine w _) hcore

theorem sound_withCore (options : Options) : (void options).withCore.Sound := by
  refine ⟨CoreClasses.sound_bootstrap, CoreClasses.knownIn_bootstrap, ?_, fun hs => ?_, fun hs => ?_⟩
  · exact LookupCache.sound_empty _
  · cases hs
  · cases hs

/-- Defining a kernel method makes no record. -/
theorem admits_of_mem_definitions {core : CoreClasses} {e : Edit Body}
    (he : e ∈ Kernel.definitions core) (w : World) : w.Admits e := by
  simp only [Kernel.definitions, List.mem_cons, List.not_mem_nil, or_false] at he
  rcases he with rfl | rfl | rfl | rfl | rfl | rfl | rfl | rfl <;> exact True.intro

theorem sound_start (options : Options) : (start options).Sound :=
  start_induction (fun w _ _ he hw => hw.edit (admits_of_mem_definitions he w))
    (sound_withCore options)

theorem alike_start (options options' : Options) : (start options).Alike (start options') := by
  have hvoid : (void options).withCore.Alike (void options').withCore :=
    { Alike.refl (void options).withCore with }
  rw [start_eq, start_eq, hvoid.core]
  exact hvoid.editAll _

end World

end LateBinding
