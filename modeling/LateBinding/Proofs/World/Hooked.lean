import LateBinding.Proofs.Hierarchy.Filing
import LateBinding.Proofs.Kernel
import LateBinding.Proofs.Rooted
import LateBinding.Proofs.World.Sites

namespace LateBinding

/-- The bodies of the kernel methods are the first ones that get an identity. -/
def Target.IsKernel (t : Target) : Prop := t.serial < (Kernel.definitions default).length

instance (t : Target) : Decidable t.IsKernel := inferInstanceAs (Decidable (_ < _))

/-- An entry for a name can be run unless it is a tombstone, it is none if it is the hook, and if it
runs a kernel method, then a harmless one. -/
structure Method.Genuine (name : Symbol) (m : Method Target) : Prop where
  wellMarked : m.WellMarked
  hook : name = .methodMissing → m.isUndefined = false
  harmless : ∀ t, m.target = some t → t.IsKernel → t.body.Harmless

/-- The request takes the hook for missing methods away from the basic object, or undefines such a
method. -/
def Edit.harmsHook {τ : Type} (core : CoreClasses) : Edit τ → Bool
  | remove owner name => owner = core.basicObject && name = .methodMissing
  | undefine _ name => name = .methodMissing
  | _ => false

/-- Everything that a request puts into a table is genuine, if the bodies that it defines are not
taken for kernel methods that they are not. -/
theorem Edit.keeps_genuine {core : CoreClasses} {serial : Nat} {e : Edit Body}
    (he : (e.map (Target.mk serial)).harmsHook core = false)
    (hbody : ∀ owner name visibility body flags, e = .define owner name visibility body flags →
      Target.IsKernel ⟨serial, body⟩ → body.Harmless) :
    Hierarchy.Keeps (e.map (Target.mk serial)) Method.Genuine where
  define hdefine generation := by
    refine ⟨Method.wellMarked_new .., fun _ => rfl, fun t ht hkernel => ?_⟩
    cases e with
    | define _ _ _ body _ =>
      cases hdefine
      cases ht
      exact hbody _ _ _ body _ rfl hkernel
    | _ => cases hdefine
  undefine hundefine generation := by
    rw [hundefine] at he
    exact ⟨Method.wellMarked_tombstone .., fun hname => absurd hname (of_decide_eq_false he), nofun⟩
  copy hm hdefined name' m' htarget hflags := by
    refine ⟨?_, fun _ => ?_, fun t ht => ?_⟩
    · rw [Method.WellMarked, Method.isUndefined, hflags, htarget]
      exact hm.wellMarked
    · rw [Method.isUndefined, hflags]
      exact hdefined
    · rw [htarget] at ht
      exact hm.harmless t ht

namespace World

/-- What a program may ask of the hierarchy: records below records that exist, classes and singleton
classes below classes, and nothing that takes the hook away. -/
structure Permits (w : World) (e : Edit Body) : Prop where
  admits : w.Admits e
  rooted : (e.map (Target.mk w.serial)).StaysRooted w.hierarchy
  hook : (e.map (Target.mk w.serial)).harmsHook w.core = false

theorem permits_iff {w : World} {e : Edit Body} : w.Permits e ↔
    w.Admits e ∧ (e.map (Target.mk w.serial)).StaysRooted w.hierarchy ∧
      (e.map (Target.mk w.serial)).harmsHook w.core = false :=
  ⟨fun he => ⟨he.admits, he.rooted, he.hook⟩, fun he => ⟨he.1, he.2.1, he.2.2⟩⟩

instance (w : World) (e : Edit Body) : Decidable (w.Permits e) :=
  decidable_of_iff' _ permits_iff

/-- The value is no object, or an object of a class that exists and is no module. -/
def HasProperClass (w : World) (v : Value) : Prop :=
  ∀ o, v = .object o → w.hierarchy.IsClass o.declaredClass

/-- The value is plain data or foreign, an object of a class that exists and is no module, or a class
or module that exists. -/
def Knows (w : World) : Value → Prop
  | .object o => w.hierarchy.IsClass o.declaredClass
  | .module id => w.hierarchy.Knows id
  | _ => True

instance (w : World) (v : Value) : Decidable (w.HasProperClass v) := by
  cases v with
  | object o => exact decidable_of_iff (w.hierarchy.IsClass o.declaredClass) (by simp [HasProperClass])
  | _ => exact isTrue nofun

instance (w : World) (v : Value) : Decidable (w.Knows v) := by
  cases v <;> unfold Knows <;> infer_instance

/-- The singleton class of an object is asked for only if its class is in order. -/
def PermitsQuery (w : World) (q : Query) : Prop :=
  ∀ v, q = .singletonClassOf v → w.HasProperClass v

instance (w : World) (q : Query) : Decidable (w.PermitsQuery q) := by
  cases q with
  | singletonClassOf v => exact decidable_of_iff (w.HasProperClass v) (by simp [PermitsQuery])
  | _ => exact isTrue nofun

variable {w w' : World} {v : Value}

theorem Knows.hasProperClass (hv : w.Knows v) : w.HasProperClass v := by
  rintro o rfl
  exact hv

theorem Knows.of_keepsFlags (hkeeps : w.hierarchy.KeepsFlags w'.hierarchy) (hv : w.Knows v) :
    w'.Knows v := by
  cases v with
  | object o => exact hkeeps.isClass hv
  | module id => exact hkeeps.knows hv
  | _ => exact trivial

/-- Everything that is remembered is right, every class descends from the basic object, and every
entry of a table is genuine. -/
structure Guarded (w : World) : Prop where
  sound : w.Sound
  rooted : w.core.Rooted w.hierarchy
  genuine : ∀ id name m, w.hierarchy.own? id name = some m → m.Genuine name

/-- The hook is in place, and new bodies are not taken for kernel methods. -/
structure Hooked (w : World) : Prop extends Guarded w where
  hook : ∃ m, w.hierarchy.own? w.core.basicObject .methodMissing = some m
  serial : (Kernel.definitions default).length ≤ w.serial

/-- The hook is in place, and what there was before is what it was. -/
structure Follows (w w' : World) : Prop where
  hooked : w'.Hooked
  keeps : w.hierarchy.KeepsFlags w'.hierarchy

/-- Nothing but what is remembered is new. -/
theorem Hooked.follows_of_recalls (hw : w.Hooked) (hsound : w'.Sound)
    (hrec : w.hierarchy.Recalls w'.hierarchy) (hcore : w'.core = w.core)
    (hserial : w.serial ≤ w'.serial) : w.Follows w' := by
  refine ⟨⟨⟨hsound, ?_, ?_⟩, ?_, hw.serial.trans hserial⟩, hrec.sameKin.keepsFlags⟩
  · rw [hcore]
    exact hw.rooted.of_sameKin hrec.sameKin
  · rw [hrec.own?_eq]
    exact hw.genuine
  · rw [hcore, hrec.own?_eq]
    exact hw.hook

theorem Hooked.follows_of_eq (hw : w.Hooked) (hsound : w'.Sound)
    (hhierarchy : w'.hierarchy = w.hierarchy) (hcore : w'.core = w.core)
    (hserial : w.serial ≤ w'.serial) : w.Follows w' := by
  refine hw.follows_of_recalls hsound ?_ hcore hserial
  rw [hhierarchy]
  exact hw.sound.hierarchy.recalls_refl

theorem Hooked.follows_refl (hw : w.Hooked) : w.Follows w := ⟨hw, .refl _⟩

theorem Guarded.edit (hw : w.Guarded) {e : Edit Body} (he : w.Permits e)
    (hbody : ∀ owner name visibility body flags, e = .define owner name visibility body flags →
      Target.IsKernel ⟨w.serial, body⟩ → body.Harmless) :
    (w.edit e).2.Guarded ∧ w.hierarchy.KeepsFlags (w.edit e).2.hierarchy := by
  obtain ⟨hroot, hkeeps⟩ := hw.rooted.apply hw.sound.hierarchy he.rooted
  refine ⟨⟨hw.sound.edit he.admits, hroot, ?_⟩, hkeeps⟩
  exact hw.sound.hierarchy.entries_apply hw.genuine (Edit.keeps_genuine he.hook hbody)

/-- A request that a program may make leaves the hook in place. -/
theorem Hooked.edit (hw : w.Hooked) {e : Edit Body} (he : w.Permits e) :
    w.Follows (w.edit e).2 := by
  -- What is defined from now on gets a number that no kernel method has.
  have hlate (body : Body) : ¬ Target.IsKernel ⟨w.serial, body⟩ := Nat.not_lt.mpr hw.serial
  obtain ⟨hguarded, hkeeps⟩ := hw.toGuarded.edit he fun _ _ _ body _ _ hkernel =>
    absurd hkernel (hlate body)
  obtain ⟨m, hm⟩ := hw.hook
  have hne : e.map (Target.mk w.serial) ≠ .remove w.core.basicObject .methodMissing := by
    intro hremove
    have hhook := he.hook
    rw [hremove] at hhook
    simp [Edit.harmsHook] at hhook
  exact ⟨⟨hguarded, hw.sound.hierarchy.own?_kept hm hne, hw.serial.trans (Nat.le_succ _)⟩, hkeeps⟩

theorem Hooked.walk (hw : w.Hooked) (id : ClassId) (name : Symbol) :
    w.Follows (w.walk id name).2 := by
  obtain ⟨-, halike, hsound⟩ := hw.sound.walk_spec id name
  refine hw.follows_of_recalls hsound ?_ halike.core (Nat.le_of_eq halike.serial.symm)
  rw [halike.hierarchy]
  exact hw.sound.hierarchy.recalls_ancestors id

theorem Hooked.answer (hw : w.Hooked) {q : Query} (hq : w.PermitsQuery q) :
    w.Follows (w.answer q).2 := by
  have hsound := hw.sound.answer q
  cases q with
  | findMethod receiver name => exact hw.walk (w.effectiveClass receiver) name
  | keepMethod receiver name =>
    have hfollows := hw.walk (w.effectiveClass receiver) name
    exact ⟨(hfollows.hooked.follows_of_eq hsound rfl rfl (Nat.le_refl _)).hooked, hfollows.keeps⟩
  | singletonClassOf v =>
    have hv := hq v rfl
    obtain ⟨hroot, hkeeps⟩ := hw.rooted.singletonClassOf hw.sound.hierarchy hw.sound.core hv
    have hown := Hierarchy.own?_singletonClassOf hw.sound.hierarchy hw.sound.core v
    refine ⟨⟨⟨hsound, hroot, ?_⟩, ?_, hw.serial⟩, hkeeps⟩
    · simp only [World.answer, hown]
      exact hw.genuine
    · simp only [World.answer, hown]
      exact hw.hook
  | freshText text => exact hw.follows_of_eq hsound rfl rfl (Nat.le_succ _)
  | _ => exact hw.follows_of_eq hsound rfl rfl (Nat.le_refl _)

/-- A request for the singleton class of a value that exists is refused for reasons that programs can
deal with. -/
theorem Hooked.notFatal_singletonClassOf (hw : w.Hooked) (hv : w.Knows v) :
    NotFatal (w.answer (.singletonClassOf v)).1 := by
  have hmodule (id : ClassId) (hid : v = .module id) : w.hierarchy.Knows id := by
    subst hid
    exact hv
  have herror {f : Fault} := hw.rooted.singletonClassOf_error hw.sound.hierarchy hw.sound.core
    hv.hasProperClass hmodule (f := f)
  simp only [World.answer]
  generalize (w.core.singletonClassOf w.hierarchy v).1 = made at herror
  cases made with
  | ok id => exact trivial
  | error f => exact herror rfl

/-- The decision about a call of a receiver is no fatal fault, and a method that is to be run can be
run on this receiver. -/
inductive Safe (receiver : Value) : Decision → Prop where
  | answer (d : Dispatched) : Safe receiver (.answer d)
  | fail {f : Fault} (hf : f.isFatal = false) : Safe receiver (.fail f)
  | invoke {m : Method Target} {t : Target} (ht : m.target = some t)
    (hkernel : t.IsKernel → t.body.Harmless) (args : List Value) (block : Option Block) :
    Safe receiver (.invoke m receiver args block)

theorem Hooked.knows_effectiveClass (hw : w.Hooked) (hv : w.HasProperClass v) :
    w.hierarchy.Knows (w.effectiveClass v) :=
  (hw.rooted.effectiveClass hv).knows

/-- Every receiver whose class is in order has a hook. -/
theorem Hooked.view_methodMissing (hw : w.Hooked) (hv : w.HasProperClass v) :
    ∃ m, w.hierarchy.view (w.effectiveClass v) .methodMissing = .defined m ∧
      m.Genuine .methodMissing := by
  -- The walk ends at the entry of the basic object at the latest. It may end at another one, but
  -- no entry for the hook is a tombstone.
  obtain ⟨m, hm⟩ := hw.hook
  have hclass := hw.rooted.effectiveClass hv
  have habove := hw.rooted.mem_ancestors hw.sound.hierarchy hclass
  rw [hw.sound.hierarchy.ancestors_fst] at habove
  have hsome : (w.hierarchy.first? (w.effectiveClass v) .methodMissing).isSome = true :=
    List.findSome?_isSome_iff.mpr ⟨_, habove, Option.isSome_iff_exists.mpr ⟨m, hm⟩⟩
  obtain ⟨hook, hfirst⟩ := Option.isSome_iff_exists.mp hsome
  obtain ⟨id, hown⟩ := Hierarchy.exists_own?_of_first? hfirst
  have hgenuine := hw.genuine id .methodMissing hook hown
  exact ⟨hook, Walk.ofFirst_eq_defined_iff.mpr ⟨hfirst, hgenuine.hook rfl⟩, hgenuine⟩

theorem safe_invoke {name : Symbol} {m : Method Target} (hm : m.Genuine name)
    (hdefined : m.isUndefined = false) (receiver : Value) (args : List Value)
    (block : Option Block) : Safe receiver (.invoke m receiver args block) := by
  obtain ⟨-, t, ht⟩ := hm.wellMarked.canRun hdefined
  exact .invoke ht (hm.harmless t ht) args block

theorem Hooked.safe_missing (hw : w.Hooked) {r : Request} (hr : w.HasProperClass r.receiver)
    (mode : Mode) : Safe r.receiver (w.missing r mode) := by
  obtain ⟨hook, hview, hgenuine⟩ := hw.view_methodMissing hr
  rw [missing]
  split
  · exact .answer _
  · split
    · exact .answer _
    · rw [hview]
      exact safe_invoke hgenuine (hgenuine.hook rfl) _ _ _

theorem Hooked.safe_judge (hw : w.Hooked) {r : Request} (hr : w.HasProperClass r.receiver)
    (mode : Mode) (id : ClassId) :
    Safe r.receiver (w.judge r mode ((w.hierarchy.view id r.name).lookup mode)) := by
  cases hfound : (w.hierarchy.view id r.name).lookup mode with
  | found m =>
    obtain ⟨hview, -⟩ := Walk.lookup_eq_found_iff.mp hfound
    obtain ⟨hfirst, hdefined⟩ := Walk.ofFirst_eq_defined_iff.mp hview
    obtain ⟨x, hown⟩ := Hierarchy.exists_own?_of_first? hfirst
    rw [judge, Request.found]
    split
    · exact .answer _
    · exact safe_invoke (hw.genuine x r.name m hown) hdefined _ _ _
  | _ => exact hw.safe_missing hr mode

theorem safe_ofOutcome {outcome : Except Fault Dispatched} (houtcome : NotFatal outcome)
    (receiver : Value) : Safe receiver (.ofOutcome outcome) := by
  cases outcome with
  | ok d => exact .answer d
  | error f => exact .fail houtcome

/-- Foreign objects report no fatal fault. -/
theorem notFatal_dispatch (object : ForeignObject) (f : ForeignRef) (name : Symbol)
    (args : List Value) (mode : Mode) : NotFatal (object.dispatch f name args mode) := by
  cases houtcome : object.dispatch f name args mode with
  | ok d => exact trivial
  | error fault =>
    have hkind := ForeignObject.kind_of_dispatch_error houtcome
    simp only [NotFatal, Fault.isFatal, hkind]
    rfl

theorem Hooked.safe_verdict (hw : w.Hooked) {r : Request} (hr : w.HasProperClass r.receiver)
    (mode : Mode) : Safe r.receiver (w.verdict r mode) := by
  cases hforeign : r.receiver.isForeign with
  | true =>
    obtain ⟨route, receiver, name, args, block⟩ := r
    cases receiver with
    | foreign f => exact safe_ofOutcome (notFatal_dispatch ..) _
    | _ => cases hforeign
  | false =>
    rw [verdict_native hforeign]
    exact hw.safe_judge hr mode _

/-- A call of a receiver whose class is in order is not decided by a fatal fault, whatever its route,
and leaves the hook in place. -/
theorem Hooked.safe_decide (hw : w.Hooked) {r : Request} (hr : w.HasProperClass r.receiver) :
    Safe r.receiver (w.decide r).1 ∧ w.Follows (w.decide r).2 := by
  cases hmode : r.route.mode? w.modes with
  | none =>
    rw [decide_of_mode?_eq_none hmode]
    exact ⟨.answer _, hw.follows_refl⟩
  | some mode =>
    have hsettles := hw.sound.decide_settles hmode fun _ => hw.knows_effectiveClass hr
    constructor
    · rw [hsettles.decision]
      exact hw.safe_verdict hr mode
    · have hsettled : w.hierarchy.Recalls (w.settle r.receiver).hierarchy ∧
          (w.settle r.receiver).core = w.core ∧ (w.settle r.receiver).serial = w.serial := by
        rw [settle]
        split
        · exact ⟨hw.sound.hierarchy.recalls_refl, rfl, rfl⟩
        · exact ⟨hw.sound.hierarchy.recalls_ancestors _, rfl, rfl⟩
      obtain ⟨hrec, hcore, hserial⟩ := hsettled
      rw [← hsettles.alike.hierarchy] at hrec
      exact hw.follows_of_recalls hsettles.sound hrec (hsettles.alike.core.trans hcore)
        (Nat.le_of_eq (hsettles.alike.serial.trans hserial).symm)

theorem hooked_start (options : Options) : (start options).Hooked := by
  have hguarded : (start options).Guarded := by
    refine start_induction (P := Guarded) (fun w core e he hw => ?_) ?_
    · obtain ⟨owner, name, visibility, body, rfl, hharmless⟩ :=
        Kernel.harmless_of_mem_definitions he
      have hpermits : w.Permits (Kernel.builtin owner name visibility body) :=
        ⟨True.intro, True.intro, rfl⟩
      refine (hw.edit hpermits fun _ _ _ _ _ hdefine _ => ?_).1
      cases hdefine
      exact hharmless
    · refine ⟨sound_withCore options, CoreClasses.rooted_bootstrap, fun id name m hm => ?_⟩
      exact absurd ((CoreClasses.own?_bootstrap id name).symm.trans hm) nofun
  have halike := alike_start {} options
  have hhook : ((start {}).hierarchy.own? (start {}).core.basicObject
      .methodMissing).isSome = true := by decide +kernel
  have hserial : (Kernel.definitions default).length ≤ (start {}).serial := by decide +kernel
  refine ⟨hguarded, ?_, ?_⟩
  · rw [halike.hierarchy, halike.core]
    exact Option.isSome_iff_exists.mp hhook
  · rw [halike.serial]
    exact hserial

end World

end LateBinding
