import LateBinding.Proofs.Hierarchy.Listing
import LateBinding.Proofs.Machine.Responding

namespace LateBinding

theorem Safepoints.isIdle_iterate_passed {α : Type} (calls : Nat) (s : Safepoints α) :
    (passed^[calls] s).isIdle = s.isIdle := by
  induction calls with
  | zero => rfl
  | succ calls ih =>
    rw [Function.iterate_succ_apply', ← ih]
    rfl

namespace World

/-- A world is another one behind some calls of a receiver of which none has run anything. Once both have
been asked for the ancestors of the receiver's class, they differ in the polls and in what is there for speed
and observation only. Behind one call or more, the second one has been asked already. -/
structure Behind (w : World) (v : Value) (calls : Nat) (u : World) : Prop where
  sound : u.Sound
  alike : { w.settle v with safepoints := Safepoints.passed^[calls] w.safepoints }.Alike (u.settle v)
  settled : calls ≠ 0 → (u.settle v).hierarchy = u.hierarchy

/-- A call is to run a method that has a given body. -/
def RunsBody (w : World) (r : Request) (m : Method Target) (body : Body) : Prop :=
  ∃ mode, r.route.mode? w.modes = some mode ∧ mode.isRespondTo = false ∧ w.Resolves r mode m ∧
    m.target.map Target.body = some body

variable {w u : World} {v : Value} {calls : Nat} {r : Request} {mode : Mode} {m : Method Target}
  {body : Body}

theorem exists_runsBody (hmode : r.route.mode? w.modes = some mode) (hcalls : mode.isRespondTo = false)
    (hbody : ((w.lookup (w.effectiveClass r.receiver) r.name mode).1.method?.bind Method.target).map
      Target.body = some body) : ∃ m, w.RunsBody r m body := by
  obtain ⟨t, ht, hbody⟩ := Option.map_eq_some_iff.mp hbody
  obtain ⟨m, hm, ht⟩ := Option.bind_eq_some_iff.mp ht
  refine ⟨m, mode, hmode, hcalls, Lookup.method?_eq_some_iff.mp hm, ?_⟩
  rw [ht, Option.map_some, hbody]

theorem settle_eq (w : World) (v : Value) :
    ∃ h, w.settle v = { w with hierarchy := h } ∧ h.forget = w.hierarchy.forget := by
  rw [settle]
  split
  · exact ⟨w.hierarchy, rfl, rfl⟩
  · exact ⟨_, rfl, w.hierarchy.forget_ancestors _⟩

theorem settle_safepoints (w : World) (v : Value) (safepoints : Safepoints Script) :
    { w with safepoints }.settle v = { w.settle v with safepoints } := by
  rw [settle, settle]
  split <;> rfl

/-- Asking again for the ancestors of the same class changes nothing. -/
theorem Sound.settle_settle (hw : w.Sound) (v : Value) : (w.settle v).settle v = w.settle v := by
  cases hv : v.isForeign with
  | true => simp only [settle, hv, if_true]
  | false =>
    have hkept := hw.ancestors_effectiveClass (v := v) (.refl _)
    rw [settle_native hv, settle_native hv, hkept]

theorem Sound.view_of_forget_eq (hw : w.Sound) (hforget : u.hierarchy.forget = w.hierarchy.forget)
    (id : ClassId) (name : Symbol) : u.hierarchy.view id name = w.hierarchy.view id name := by
  rw [Hierarchy.view, Hierarchy.view, Hierarchy.first?, Hierarchy.first?,
    hw.hierarchy.toStratified.linearize_of_forget_eq hforget]
  exact congrArg Walk.ofFirst
    (Hierarchy.firstOwn?_congr fun x _ => Hierarchy.own?_of_forget_eq hforget x name)

theorem effectiveClass_of_forget_eq (hforget : u.hierarchy.forget = w.hierarchy.forget)
    (hcore : u.core = w.core) (v : Value) : u.effectiveClass v = w.effectiveClass v := by
  rw [effectiveClass, effectiveClass, hcore, CoreClasses.effectiveClass_of_forget_eq hforget]

theorem describe_of_forget_eq (hforget : u.hierarchy.forget = w.hierarchy.forget)
    (hcore : u.core = w.core) (v : Value) :
    u.core.describe u.hierarchy v = w.core.describe w.hierarchy v := by
  rw [hcore, CoreClasses.describe_of_forget_eq hforget]

theorem Sound.verdict_of_forget_eq (hw : w.Sound) (hforget : u.hierarchy.forget = w.hierarchy.forget)
    (hcore : u.core = w.core) (hforeigns : u.foreigns = w.foreigns) (r : Request) (mode : Mode) :
    u.verdict r mode = w.verdict r mode := by
  have hclass := effectiveClass_of_forget_eq hforget hcore
  have hdescribe := describe_of_forget_eq hforget hcore
  have hmissing : u.missing r mode = w.missing r mode := by
    simp only [missing, hclass, hw.view_of_forget_eq hforget, hdescribe]
  cases hnative : r.receiver.isForeign with
  | true =>
    obtain ⟨route, receiver, name, args, block⟩ := r
    cases receiver with
    | foreign f => simp only [verdict, decideForeign, foreignObject, hforeigns]
    | _ => cases hnative
  | false =>
    rw [verdict_native hnative, verdict_native hnative, hclass, hw.view_of_forget_eq hforget]
    cases (w.hierarchy.view (w.effectiveClass r.receiver) r.name).lookup mode <;>
      simp only [judge, hmissing]

theorem Sound.verdict_of_resolves (hw : w.Sound) (hcalls : mode.isRespondTo = false)
    (hnative : r.receiver.isForeign = false) (hm : w.Resolves r mode m) :
    w.verdict r mode = .invoke m r.receiver r.args r.block := by
  rcases hw.verdict_of_call hcalls hnative with ⟨m', hm', hverdict⟩ | ⟨hnone, -⟩
  · rwa [hm.unique hm'] at hverdict
  · exact absurd hm (hnone m)

theorem Sound.behind_refl (hw : w.Sound) (v : Value) : w.Behind v 0 w := by
  refine ⟨hw, ?_, fun hcalls => absurd rfl hcalls⟩
  obtain ⟨h, heq, -⟩ := w.settle_eq v
  rw [heq]
  exact .refl _

namespace Behind

variable (hu : w.Behind v calls u)

include hu

theorem forget_eq : u.hierarchy.forget = w.hierarchy.forget := by
  have hsame := congrArg Hierarchy.forget hu.alike.hierarchy
  obtain ⟨h, heq, hforget⟩ := u.settle_eq v
  obtain ⟨h₀, heq₀, hforget₀⟩ := w.settle_eq v
  rw [heq, heq₀] at hsame
  exact hforget.symm.trans (hsame.trans hforget₀)

/-- Apart from what is remembered, only the safepoints are different. -/
theorem alike_safepoints : { w with
    hierarchy := u.hierarchy
    safepoints := Safepoints.passed^[calls] w.safepoints }.Alike u := by
  have halike := hu.alike
  obtain ⟨h, heq, -⟩ := u.settle_eq v
  obtain ⟨h₀, heq₀, -⟩ := w.settle_eq v
  rw [heq, heq₀] at halike
  exact { halike with hierarchy := rfl }

theorem safepoints_eq : u.safepoints = Safepoints.passed^[calls] w.safepoints :=
  hu.alike_safepoints.safepoints

theorem verdict_eq (hw : w.Sound) (r : Request) (mode : Mode) : u.verdict r mode = w.verdict r mode :=
  hw.verdict_of_forget_eq hu.forget_eq hu.alike_safepoints.core hu.alike_safepoints.foreigns r mode

theorem effectiveClass_eq (v' : Value) : u.effectiveClass v' = w.effectiveClass v' :=
  effectiveClass_of_forget_eq hu.forget_eq hu.alike_safepoints.core v'

theorem describe_eq (v' : Value) : u.core.describe u.hierarchy v' = w.core.describe w.hierarchy v' :=
  describe_of_forget_eq hu.forget_eq hu.alike_safepoints.core v'

/-- Behind one call or more, the worlds differ in nothing that can be seen but the number of polls. -/
theorem alike_of_ne_zero (hcalls : calls ≠ 0) :
    { w.settle v with safepoints := Safepoints.passed^[calls] w.safepoints }.Alike u := by
  refine hu.alike.trans ?_
  have hsettled := hu.settled hcalls
  obtain ⟨h, heq, -⟩ := u.settle_eq v
  rw [heq] at hsettled ⊢
  obtain rfl : h = u.hierarchy := hsettled
  exact .refl _

/-- The method that a value has for a name is the one that it had. -/
theorem findMethod_eq (hw : w.Sound) (v' : Value) (name : Symbol) :
    (u.findMethod v' name).1 = (w.findMethod v' name).1 := by
  rw [(hu.sound.findMethod_spec v' name).1, (hw.findMethod_spec v' name).1, hu.effectiveClass_eq,
    hw.view_of_forget_eq hu.forget_eq]

/-- Looking for a method of the receiver leaves as little behind as a call does. -/
theorem findMethod (hnative : v.isForeign = false) (name : Symbol) :
    w.Behind v calls (u.findMethod v name).2 := by
  obtain ⟨-, halike, hsound⟩ := hu.sound.findMethod_spec v name
  rw [← settle_native hnative] at halike
  have hagain := hu.sound.settle_settle v
  have hsettled := halike.settle v
  rw [hagain] at hsettled
  refine ⟨hsound, hu.alike.trans hsettled, fun _ => ?_⟩
  rw [hsettled.hierarchy, halike.hierarchy]

variable (hw : w.Sound) (hidle : w.safepoints.isIdle = true) (hclass : w.HasClass v)

include hw hidle hclass

/-- A call is decided as if none had been before it, and the world behind it is behind one call more. -/
theorem call (hmode : r.route.mode? w.modes = some mode) (hreceiver : r.receiver = v)
    (thread : ThreadId) (stack : List Waiting) :
    ∃ u', (⟨u, thread, .arrive (some r), stack⟩ : Machine).Leads [w.verdict r mode]
        ⟨u', thread, .ofDecision (w.verdict r mode), stack⟩ ∧ w.Behind v (calls + 1) u' := by
  let u₁ : World := { u with safepoints := u.safepoints.passed }
  have hsound : u₁.Sound := hu.sound.of_eq rfl rfl rfl rfl
  have hidle' : u.safepoints.isIdle = true := by
    rw [hu.safepoints_eq, Safepoints.isIdle_iterate_passed, hidle]
  have hmode' : r.route.mode? u₁.modes = some mode := by
    rw [← hmode]
    exact congrArg r.route.mode? hu.alike_safepoints.modes
  have hknown : u₁.hierarchy.Knows (u₁.effectiveClass r.receiver) := by
    rw [hreceiver]
    refine (Hierarchy.knows_iff_of_forget_eq hu.forget_eq).mpr ?_
    rw [show u₁.effectiveClass v = w.effectiveClass v from hu.effectiveClass_eq v]
    exact hw.effectiveClass_known hclass
  have hsettles := hsound.decide_settles hmode' fun _ => hknown
  rw [verdict_safepoints, hu.verdict_eq hw, hreceiver] at hsettles
  have hleads := Machine.leads_decide hidle' thread r stack
  rw [hsettles.decision] at hleads
  have hagain : (u₁.settle v).settle v = u₁.settle v := hsound.settle_settle v
  refine ⟨_, hleads, hsettles.sound, ?_, fun _ => ?_⟩
  · have hsettled := hsettles.alike.settle v
    rw [hagain, settle_safepoints] at hsettled
    refine Alike.trans ?_ hsettled
    rw [Function.iterate_succ_apply', hu.safepoints_eq]
    exact { hu.alike with safepoints := rfl }
  · rw [(hsettles.alike.settle v).hierarchy, hagain, hsettles.alike.hierarchy]

/-- A call that is to run a method begins with its body. -/
theorem runs (hmode : r.route.mode? w.modes = some mode) (hreceiver : r.receiver = v)
    {t : Target} {args : List Value} {block : Option Block}
    (hverdict : w.verdict r mode = .invoke m v args block) (ht : m.target = some t)
    (thread : ThreadId) (stack : List Waiting) :
    ∃ u', (⟨u, thread, .arrive (some r), stack⟩ : Machine).Leads [.invoke m v args block]
        ⟨u', thread, .run (t.body ⟨m.info, v, args, block.isSome⟩) block, stack⟩ ∧
      w.Behind v (calls + 1) u' := by
  obtain ⟨u', hleads, hu'⟩ := hu.call hw hidle hclass hmode hreceiver thread stack
  rw [hverdict] at hleads
  refine ⟨u', ?_, hu'⟩
  simpa only [Control.ofDecision, ht] using hleads

/-- A call that finds a method begins with the body of this method. -/
theorem runs_body (hnative : v.isForeign = false) (hruns : w.RunsBody r m body)
    (hreceiver : r.receiver = v) (thread : ThreadId) : ∃ u', w.Behind v (calls + 1) u' ∧
      (Machine.ofRequest u thread r).Leads [.invoke m r.receiver r.args r.block]
        (.ofScript u' thread (body ⟨m.info, r.receiver, r.args, r.block.isSome⟩) r.block) := by
  obtain ⟨mode, hmode, hcalls, hm, hbody⟩ := hruns
  subst hreceiver
  obtain ⟨t, ht, rfl⟩ := Option.map_eq_some_iff.mp hbody
  obtain ⟨u', hleads, hu'⟩ := hu.runs hw hidle hclass hmode rfl
    (hw.verdict_of_resolves hcalls hnative hm) ht thread []
  exact ⟨u', hu', hleads⟩

end Behind

end World

end LateBinding
