import LateBinding.Proofs.Machine.IdleCalls
import LateBinding.Proofs.Machine.Tombstones

namespace LateBinding

/-- A reason is the one for which a walk offers no method: the method is private, or protected, or there
is none. -/
structure Kernel.Explains (reason : Unavailable) (walk : Walk Target) : Prop where
  privateMethod : reason = .privateMethod ↔ ∃ m, walk = .defined m ∧ m.visibility = .priv
  protectedMethod : reason = .protectedMethod ↔ ∃ m, walk = .defined m ∧ m.visibility = .prot
  undefined : reason = .undefined ↔ walk = .undefined ∨ walk = .absent

/-- What the hook finds explains why a caller found nothing. -/
theorem Kernel.explains_unavailable {walk : Walk Target} {mode : Mode}
    (hnone : ∀ m, walk.lookup mode ≠ .found m) :
    Explains (unavailable (walk.lookupAny.method?.map Method.info)) walk := by
  cases walk with
  | defined m =>
    have hfound : (Walk.defined m).lookupAny.method? = some m := rfl
    rw [hfound, Option.map_some]
    cases hvisibility : m.visibility with
    | pub =>
      refine absurd (Walk.lookup_eq_found_iff.mpr ⟨rfl, ?_⟩) (hnone m)
      simp [hvisibility, Mode.allows]
    | _ => constructor <;> simp [unavailable, Method.info, Method.map, hvisibility]
  | _ => constructor <;> simp [unavailable, Walk.lookupAny, Walk.filter, Lookup.method?]

namespace World

variable {w u : World} {v : Value} {calls : Nat} {r : Request} {mode : Mode} {hook : Method Target}

/-- The hook of the kernel ends at once, with a report of the first argument. -/
theorem Behind.ends_methodMissing (hu : w.Behind v calls u) (hw : w.Sound)
    (hnative : v.isForeign = false) (m : Method Unit) (name : Symbol) (args : List Value)
    (block : Option Block) (thread : ThreadId) :
    ∃ u', (Machine.ofScript u thread
        (Kernel.methodMissing ⟨m, v, .symbol name :: args, block.isSome⟩) block).Ends []
          (.error (.noMethod (w.core.describe w.hierarchy v) name args
            (Kernel.unavailable ((w.findMethod v name).1.map Method.info)))) u' ∧
      w.Behind v calls u' := by
  have hu' := hu.findMethod hnative name
  refine ⟨_, ⟨_, .quiet rfl rfl (.quiet rfl rfl (.quiet rfl rfl (.refl _))), ?_⟩, hu'⟩
  rw [← hu.findMethod_eq hw, ← hu'.describe_eq]
  rfl

/-- A call that finds no method is to run the hook, if there is one. -/
theorem Sound.verdict_of_hook (hw : w.Sound) (hcalls : mode.isRespondTo = false)
    (hraises : mode.returnsMissing = false) (hnative : r.receiver.isForeign = false)
    (hnone : ∀ m, ¬ w.Resolves r mode m)
    (hhook : (w.findMethod r.receiver .methodMissing).1 = some hook) :
    w.verdict r mode = .invoke hook r.receiver (.symbol r.name :: r.args) r.block := by
  rcases hw.verdict_of_call hcalls hnative with ⟨m, hm, -⟩ | ⟨-, hmissing⟩
  · exact absurd hm (hnone m)
  · generalize w.verdict r mode = d at hmissing
    cases hmissing with
    | told hreturns => rw [hraises] at hreturns; cases hreturns
    | hook _ hhook' =>
      rw [hhook] at hhook'
      rw [Option.some.inj hhook']
    | noHook _ hhook' => rw [hhook] at hhook'; cases hhook'

/-- In every state that a program can bring about, with nothing to do at the safepoint, and whatever the
route of the call is: a call that finds no method in its mode, which does not say that the caller is to be
told, begins with the method that the receiver has as its hook, with the name in front of the arguments and
with the block of the call, and comes to what this method comes to. If it has the body of the kernel's
hook, the call runs nothing else and fails. The fault describes the receiver, has the name and the arguments
of the call, and explains why the walk for the name offers no method. -/
theorem missing_reported (hw : w.Reachable) (hidle : w.safepoints.isIdle = true)
    (hmode : r.route.mode? w.modes = some mode) (hcalls : mode.isRespondTo = false)
    (hraises : mode.returnsMissing = false) (hnative : r.receiver.isForeign = false)
    (hclass : w.HasClass r.receiver) (hnone : ∀ m, ¬ w.Resolves r mode m)
    (hhook : (w.findMethod r.receiver .methodMissing).1 = some hook) (thread : ThreadId) :
    let hooked : Decision := .invoke hook r.receiver (.symbol r.name :: r.args) r.block
    ∃ t u, hook.target = some t ∧ w.Behind r.receiver 1 u ∧
      (Machine.ofRequest w thread r).Relays [hooked] id (.ofScript u thread
        (t.body ⟨hook.info, r.receiver, .symbol r.name :: r.args, r.block.isSome⟩) r.block) ∧
      (t.body = Kernel.methodMissing → ∃ reason u',
        (Machine.ofRequest w thread r).Ends [hooked]
          (.error (.noMethod (w.core.describe w.hierarchy r.receiver) r.name r.args reason)) u' ∧
        w.Behind r.receiver 1 u' ∧
        Kernel.Explains reason (w.walk (w.effectiveClass r.receiver) r.name).1) := by
  intro hooked
  have hsound := hw.sound
  obtain ⟨-, t, ht⟩ : hook.CanRun :=
    hw.canRun_of_walk (Walk.eq_defined_of_filter (.inl (Lookup.method?_eq_some_iff.mp hhook)))
  obtain ⟨u, hleads, hu⟩ := (hsound.behind_refl r.receiver).runs hsound hidle hclass hmode rfl
    (hsound.verdict_of_hook hcalls hraises hnative hnone hhook) ht thread []
  refine ⟨t, u, ht, hu, hleads.relays, fun hbody => ?_⟩
  obtain ⟨u', hreport, hu'⟩ := hu.ends_methodMissing hsound hnative hook.info r.name r.args r.block
    thread
  rw [← hbody] at hreport
  exact ⟨_, u', hleads.relays.ends hreport, hu', Kernel.explains_unavailable hnone⟩

/-- A protected method, and a hook that has been made public, at a site that has seen too many. -/
theorem missing_reported_protected :
    let receiver : Value := .object ⟨0, ⟨1⟩⟩
    let call : Request := ⟨.site 0, receiver, ⟨"guarded"⟩, [.nil, .bool true], none⟩
    let w := (start {}).after
      [.edit (.define ⟨1⟩ ⟨"guarded"⟩ .prot (.constant .nil) {}),
        .edit (.setVisibility ⟨1⟩ .methodMissing .pub), .newSite .publicCall 0,
        .decide { call with name := .classOf, args := [] }]
    (w.sites[0]?.map CallSite.isMegamorphic) = some true ∧
      ∃ hook u, hook.visibility = .pub ∧ (Machine.ofRequest w ⟨0⟩ call).Ends
        [.invoke hook receiver [.symbol ⟨"guarded"⟩, .nil, .bool true] none]
        (.error (.noMethod "an instance of Object" ⟨"guarded"⟩ [.nil, .bool true] .protectedMethod))
        u := by
  intro receiver call w
  have hw : w.Reachable := (Reachable.start {}).after (by decide +kernel)
  have hbody : ((w.findMethod receiver .methodMissing).1.bind Method.target).map Target.body =
      some Kernel.methodMissing := by
    unfold w call receiver
    with_unfolding_all rfl
  have hvisible : (w.findMethod receiver .methodMissing).1.map Method.visibility = some .pub := by
    decide +kernel
  have hwalk : (w.walk (w.effectiveClass receiver) ⟨"guarded"⟩).1.method?.map Method.visibility =
      some .prot := by decide +kernel
  have hdescribe : w.core.describe w.hierarchy receiver = "an instance of Object" := by
    decide +kernel
  have hmode : call.route.mode? w.modes = some .publicCall := by decide +kernel
  have hidle : w.safepoints.isIdle = true := by decide +kernel
  have hclass : w.HasClass receiver := by decide +kernel
  have hmegamorphic : (w.sites[0]?.map CallSite.isMegamorphic) = some true := by decide +kernel
  clear_value w
  obtain ⟨t, htarget, hbody⟩ := Option.map_eq_some_iff.mp hbody
  obtain ⟨hook, hhook, htarget⟩ := Option.bind_eq_some_iff.mp htarget
  obtain ⟨m, hm, hprot⟩ := Option.map_eq_some_iff.mp hwalk
  have hdefined : (w.walk (w.effectiveClass receiver) ⟨"guarded"⟩).1 = .defined m := by
    cases hfound : (w.walk (w.effectiveClass receiver) ⟨"guarded"⟩).1 <;> rw [hfound] at hm <;> cases hm
    rfl
  have hnone (m' : Method Target) : ¬ w.Resolves call .publicCall m' := by
    intro hm'
    obtain ⟨hsame, hallowed⟩ := Walk.lookup_eq_found_iff.mp hm'
    obtain rfl := Walk.defined.inj (hdefined.symm.trans hsame)
    rw [hprot] at hallowed
    cases hallowed
  obtain ⟨t', u, htarget', -, -, hreport⟩ :=
    missing_reported hw hidle hmode rfl rfl rfl hclass hnone hhook ⟨0⟩
  obtain rfl : t' = t := Option.some.inj (htarget'.symm.trans htarget)
  obtain ⟨reason, u', hends, -, hexplains⟩ := hreport hbody
  obtain rfl := hexplains.protectedMethod.mpr ⟨m, hdefined, hprot⟩
  rw [hdescribe] at hends
  rw [hhook] at hvisible
  exact ⟨hmegamorphic, hook, u', Option.some.inj hvisible, hends⟩

end World

end LateBinding
