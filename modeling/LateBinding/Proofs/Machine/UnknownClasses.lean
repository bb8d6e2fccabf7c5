import LateBinding.Proofs.DeclaredClasses
import LateBinding.Proofs.Machine.Courses
import LateBinding.Proofs.Machine.Histories
import LateBinding.Proofs.SingletonClasses

namespace LateBinding

variable {τ : Type}

namespace Hierarchy

variable {h h' : Hierarchy τ}

/-- Where an object has a singleton class, its declared class exists. States that a program can bring about
are of this kind, because they do not include those in which a singleton class was attached to an object of
a class that does not exist. -/
def Grounded (h : Hierarchy τ) : Prop :=
  ∀ ⦃o s⦄, h.singletonOf? o = some s → h.Knows o.declaredClass

theorem Grounded.of_grows (hh : h.Grounded) (hgrows : h.Grows h')
    (hobjects : ∀ {o s}, h'.singletonOf? o = some s → h.singletonOf? o = some s) : h'.Grounded :=
  fun _ _ hs => hgrows.knows (hh (hobjects hs))

theorem Grounded.of_sameTies (hh : h.Grounded) (hsame : h.SameTies h') : h'.Grounded :=
  hh.of_grows hsame.grows fun {o s} hs => by
    have hkept : h'.singletonOf? o = h.singletonOf? o := congrFun hsame.attached?_eq (.object o)
    rwa [hkept] at hs

theorem Grounded.attachToObject (hh : h.Grounded) {o : ObjectRef} (name : String)
    (hknown : h.singletonOf? o = none → h.Knows o.declaredClass) :
    (h.attachToObject o name).2.Grounded := by
  intro o' s hs
  have hgrows := h.grows_attachToObject o name
  cases hold : h.singletonOf? o' with
  | some s' => exact hgrows.knows (hh hold)
  | none =>
    rcases h.attachToObject_cases o name with heq | ⟨hobjects, -⟩
    · rw [heq, hold] at hs
      cases hs
    · rw [singletonOf?, hobjects, Table.get?_insert] at hs
      split at hs
      · rename_i ho
        subst ho
        exact hgrows.knows (hknown hold)
      · cases hold.symm.trans hs

theorem Grounded.attachToModule (hh : h.Grounded) (module superclass : ClassId) :
    (h.attachToModule module superclass).2.Grounded :=
  hh.of_grows (h.grows_attachToModule module superclass) fun {o s} hs => by
    rwa [singletonOf?, h.objectSingletons_attachToModule] at hs

/-- Singleton classes are made for objects of existing classes. -/
theorem Grounded.operation (hh : h.Grounded) (hsound : h.Sound) (op : Operation τ)
    (hop : op.NamesKnownClasses h) : (op.apply h).2.Grounded := by
  by_cases hasks : op.AsksSingleton
  · cases op with
    | edit e =>
      cases e with
      | attachToObject o name => exact hh.attachToObject name hop
      | attachToModule module superclass => exact hh.attachToModule module superclass
      | _ => exact hasks.elim
    | singletonClassOf core v =>
      exact CoreClasses.singletonClassOf_induction (P := Grounded)
        (fun _ _ _ hh => hh.attachToModule _ _) hsound hop
        (fun _ name _ hknown => hh.attachToObject name fun _ => hknown) hh
    | _ => exact hasks.elim
  · refine hh.of_grows (h.grows_operation op) fun {o s} hs => ?_
    have hkept : (op.apply h).2.singletonOf? o = h.singletonOf? o :=
      congrFun (hsound.attached?_operation hasks) (.object o)
    rwa [hkept] at hs

end Hierarchy

namespace World

variable {w : World} {m : Move} {r : Request} {mode : Mode} {o : ObjectRef} {id : Nat}
  {s : CallSite Target}

theorem grounded_start (options : Options) : (start options).hierarchy.Grounded := by
  have hstart : (start options).Sound ∧ (start options).hierarchy.Grounded := by
    refine start_induction (P := fun w => w.Sound ∧ w.hierarchy.Grounded) (fun w core e he hw => ?_)
      ⟨sound_withCore options, ?_⟩
    · have hadmits : w.Admits e := admits_of_mem_definitions he w
      exact ⟨hw.1.edit hadmits,
        hw.2.operation hw.1.hierarchy (.edit (e.map (Target.mk w.serial))) hadmits⟩
    · intro o s hs
      cases hs
  exact hstart.2

/-- Moves leave it at that. -/
theorem Sound.grounded_move (hw : w.Sound) (hm : w.AdmitsMove m) (hh : w.hierarchy.Grounded) :
    (w.move m).hierarchy.Grounded := by
  have hwalk (cls : ClassId) (name : Symbol) : (w.walk cls name).2.hierarchy.Grounded := by
    rw [(hw.walk_spec cls name).2.1.hierarchy]
    exact hh.of_sameTies (Hierarchy.sameTies_of_forget_eq (w.hierarchy.forget_ancestors cls))
  cases m with
  | edit e => exact hh.operation hw.hierarchy (.edit (e.map (Target.mk w.serial))) hm
  | ask q =>
    cases q with
    | findMethod receiver name => exact hwalk _ name
    | keepMethod receiver name => exact hwalk _ name
    | singletonClassOf v => exact hh.operation hw.hierarchy (.singletonClassOf w.core v) hw.core
    | _ => exact hh
  | decide r =>
    exact hh.of_sameTies (Hierarchy.sameTies_of_forget_eq (hw.recalls_decide r).forget_eq)
  | walk cls name => exact hwalk cls name
  | _ => exact hh

/-- In every state that a program can bring about, only objects of existing classes have singleton
classes. -/
theorem Reachable.grounded (hw : w.Reachable) : w.hierarchy.Grounded :=
  hw.induction_move (P := fun w => w.hierarchy.Grounded) grounded_start
    fun hw hm hh => hw.sound.grounded_move hm hh

theorem Reachable.effectiveClass_of_unknown (hw : w.Reachable)
    (hunknown : ¬ w.hierarchy.Knows o.declaredClass) :
    w.effectiveClass (.object o) = o.declaredClass := by
  rw [effectiveClass, CoreClasses.effectiveClass]
  cases hs : w.hierarchy.singletonOf? o with
  | none => rfl
  | some s => exact absurd (hw.grounded hs) hunknown

/-- What a call comes to that finds neither a method nor a hook. -/
def unmet (w : World) (r : Request) (mode : Mode) : Except Fault Dispatched :=
  if mode.isRespondTo then .ok (.responds false)
  else if mode.returnsMissing then .ok .missing
  else .error (.hookMissing (w.core.describe w.hierarchy r.receiver) r.name)

theorem verdict_of_unknown (hnative : r.receiver.isForeign = false)
    (hunknown : ¬ w.hierarchy.Knows (w.effectiveClass r.receiver)) (mode : Mode) :
    w.verdict r mode = .ofOutcome (w.unmet r mode) := by
  have hview (name : Symbol) : w.hierarchy.view (w.effectiveClass r.receiver) name = .absent :=
    Hierarchy.view_unknown (Hierarchy.get?_eq_none_iff.mpr hunknown) name
  have hmissing : w.missing r mode = .ofOutcome (w.unmet r mode) := by
    rw [missing, hview, unmet]
    split
    · rfl
    · split <;> rfl
  rw [verdict_native hnative, hview, ← hmissing]
  rfl

/-- What a call through a site comes to whose receiver has no class: if the site has given up remembering,
what it comes to without a site, and otherwise it fails for want of the class. -/
def unmetAt (w : World) (r : Request) (cls : ClassId) (s : CallSite Target) : Except Fault Dispatched :=
  if s.isMegamorphic then w.unmet r s.mode else .error (.unknownClass cls)

theorem unmetAt_eq_unmet_iff (w : World) (r : Request) (cls : ClassId) (s : CallSite Target) :
    w.unmetAt r cls s = w.unmet r s.mode ↔ s.isMegamorphic = true := by
  have hne : .error (.unknownClass cls) ≠ w.unmet r s.mode := by
    rw [unmet]
    split
    · simp
    · split <;> simp
  rw [unmetAt]
  split
  · rename_i hmegamorphic
    exact ⟨fun _ => hmegamorphic, fun _ => rfl⟩
  · rename_i hremembers
    exact ⟨fun heq => absurd heq hne, fun hmegamorphic => absurd hmegamorphic hremembers⟩

theorem Sound.decideAt_of_unknown (hw : w.Sound) (hnative : r.receiver.isForeign = false)
    (hunknown : ¬ w.hierarchy.Knows (w.effectiveClass r.receiver)) (s : CallSite Target) :
    (w.decideAt s r).1 = .ofOutcome (w.unmetAt r (w.effectiveClass r.receiver) s) := by
  have hnone : w.hierarchy.stampOf? (w.effectiveClass r.receiver) = none := by
    rw [Hierarchy.stampOf?, Hierarchy.get?_eq_none_iff.mpr hunknown, Option.map_none]
  rw [decideAt_native hnative, unmetAt]
  split
  · have haccess : CallSite.KeepsMemory .countAccess := fun _ => ⟨rfl, rfl, rfl, rfl⟩
    have hbypass : CallSite.KeepsMemory .countBypass := fun _ => ⟨rfl, rfl, rfl, rfl⟩
    have halike := (alike_count w s.id haccess).trans (alike_count _ s.id hbypass)
    have hsettles := ((hw.count s.id haccess).count s.id hbypass).decideUncached_settles r s.mode
    rw [hsettles.decision, halike.verdict_eq, verdict_of_unknown hnative hunknown]
  · rw [hnone]
    rfl

/-- In every state that a program can bring about, with nothing to do at the safepoint, a call of an object
whose class does not exist comes to an end at once. Without a site, it comes to what a call comes to that
finds neither a method nor a hook: it answers no if it asks, and is told that there is no method if it wants
to be told. Through a site, it comes to the same if the site has given up remembering, and to an internal
fault that names the class if not. So the two routes agree exactly if the site has given up. The states do not
include those in which a singleton class was attached to such an object: look-ups for it would begin there,
and a site would not fail. -/
theorem unknown_class_call (hw : w.Reachable) (hidle : w.safepoints.isIdle = true)
    (hreceiver : r.receiver = .object o) (hunknown : ¬ w.hierarchy.Knows o.declaredClass)
    (thread : ThreadId) :
    let comesTo (outcome : Except Fault Dispatched) :=
      ∃ u, (Machine.ofRequest w thread r).Ends [.ofOutcome outcome] outcome u
    (∀ mode, r.route = .uncached mode → comesTo (w.unmet r mode)) ∧
      ∀ id s, r.route = .site id → w.sites[id]? = some s →
        comesTo (w.unmetAt r o.declaredClass s) ∧
          (w.unmetAt r o.declaredClass s = w.unmet r s.mode ↔ s.isMegamorphic = true) := by
  intro comesTo
  let passed : World := { w with safepoints := w.safepoints.passed }
  have hsound : passed.Sound := (hw.safepoints w.safepoints.passed).sound
  have hnative : r.receiver.isForeign = false := by
    rw [hreceiver]
    rfl
  have hclass : passed.effectiveClass r.receiver = o.declaredClass := by
    rw [hreceiver]
    exact hw.effectiveClass_of_unknown hunknown
  have hmissing : ¬ passed.hierarchy.Knows (passed.effectiveClass r.receiver) := by rwa [hclass]
  constructor
  · intro mode hroute
    have hdecide : (passed.decide r).1 = .ofOutcome (w.unmet r mode) := by
      rw [decide, hroute]
      exact (hsound.decideUncached_settles r mode).decision.trans
        (verdict_of_unknown hnative hmissing mode)
    exact ⟨_, Machine.ends_of_decide hidle thread hdecide⟩
  · intro id s hroute hs
    have hdecide : (passed.decide r).1 = .ofOutcome (w.unmetAt r o.declaredClass s) := by
      have hs' : passed.sites[id]? = some s := hs
      rw [decide, hroute, ← hclass]
      simp only [hs']
      exact hsound.decideAt_of_unknown hnative hmissing s
    exact ⟨⟨_, Machine.ends_of_decide hidle thread hdecide⟩, w.unmetAt_eq_unmet_iff r _ s⟩

/-- Two sites in one world: the first one was never called, and the second one has given up remembering. -/
theorem unknown_class_call_two_sites :
    let call (site : Nat) : Request := ⟨.site site, .object ⟨0, ⟨99⟩⟩, ⟨"foo"⟩, [], none⟩
    let w := (start {}).after [.newSite .publicOrMissing 8, .newSite .publicOrMissing 0,
      .decide ⟨.site 1, .nil, ⟨"class"⟩, [], none⟩]
    let fault : Fault := .unknownClass ⟨99⟩
    ∃ u u', (Machine.ofRequest w ⟨0⟩ (call 0)).Ends [.fail fault] (.error fault) u ∧
      (Machine.ofRequest w ⟨0⟩ (call 1)).Ends [.answer .missing] (.ok .missing) u' := by
  intro call w fault
  have hw : w.Reachable := (Reachable.start {}).after (by decide +kernel)
  have hidle : w.safepoints.isIdle = true := by decide +kernel
  have hunknown : ¬ w.hierarchy.Knows ⟨99⟩ := by decide +kernel
  obtain ⟨s, hs, hremembers⟩ := Option.map_eq_some_iff.mp
    (show (w.sites[0]?).map CallSite.isMegamorphic = some false by decide +kernel)
  obtain ⟨s', hs', hgaveUp⟩ := Option.map_eq_some_iff.mp
    (show (w.sites[1]?).map (fun s => (s.isMegamorphic, s.mode)) = some (true, .publicOrMissing) by
      decide +kernel)
  clear_value w
  obtain ⟨hmegamorphic, hmode⟩ := Prod.mk.inj hgaveUp
  obtain ⟨⟨u, hfails⟩, -⟩ := (unknown_class_call (r := call 0) hw hidle rfl hunknown ⟨0⟩).2 0 s rfl hs
  obtain ⟨⟨u', htold⟩, -⟩ := (unknown_class_call (r := call 1) hw hidle rfl hunknown ⟨0⟩).2 1 s' rfl hs'
  have hfault : w.unmetAt (call 0) ⟨99⟩ s = .error fault := by simp [unmetAt, hremembers, fault]
  have hmissing : w.unmetAt (call 1) ⟨99⟩ s' = .ok .missing := by
    rw [unmetAt, if_pos hmegamorphic, hmode]
    rfl
  rw [hfault] at hfails
  rw [hmissing] at htold
  exact ⟨u, u', hfails, htold⟩

/-- A call that asks is answered no without a site, and fails through a site that was never called. -/
theorem unknown_class_call_differs :
    let call (route : Route) : Request := ⟨route, .object ⟨0, ⟨99⟩⟩, ⟨"foo"⟩, [], none⟩
    let w := (start {}).after [.newSite .publicRespond 8]
    w.Reachable ∧ w.safepoints.isIdle = true ∧ ¬ w.hierarchy.Knows ⟨99⟩ ∧
      ((Machine.ofRequest w ⟨0⟩ (call (.uncached .publicRespond))).run 2).outcome? =
        some (.ok (.responds false)) ∧
      ((Machine.ofRequest w ⟨0⟩ (call (.site 0))).run 2).outcome? =
        some (.error (.unknownClass ⟨99⟩)) := by
  intro call w
  exact ⟨(Reachable.start {}).after (by decide +kernel), by decide +kernel, by decide +kernel,
    by decide +kernel, by decide +kernel⟩

end World

end LateBinding
