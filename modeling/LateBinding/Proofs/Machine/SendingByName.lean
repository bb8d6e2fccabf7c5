import LateBinding.Proofs.Machine.MissingMethods
import LateBinding.Proofs.Machine.PollCounts

namespace LateBinding

/-- All but the first of several polls in a row are quick. -/
theorem Safepoints.iterate_passed {α : Type} (calls : Nat) (s : Safepoints α) :
    passed^[calls + 1] s = s.passed.polledMore calls := by
  induction calls with
  | zero => rfl
  | succ calls ih =>
    rw [Function.iterate_succ_apply', ih]
    rfl

namespace World

/-- A call runs the kernel's method for sending by name, as decided, and this makes another call: of the
receiver on itself, or one from outside. -/
inductive Sends (w : World) (r : Request) : Decision → Request → Prop where
  | intro {m : Method Target} {ignoreVisibility : Bool} {v : Value} {args : List Value} {name : Symbol}
    (hruns : w.RunsBody r m (Kernel.sendWith ignoreVisibility)) (hargs : r.args = v :: args)
    (hname : v.name? = some name) :
    Sends w r (.invoke m r.receiver r.args r.block)
      ⟨.uncached (if ignoreVisibility then .privateCall else .publicCall), r.receiver, name, args,
        r.block⟩

/-- A call is the first one in a chain of calls that send by name, and the last one makes another call. -/
inductive SendsAlong (w : World) : Request → List Decision → Request → Prop where
  | one {r inner : Request} {d : Decision} (hsends : w.Sends r d inner) : SendsAlong w r [d] inner
  | more {r next inner : Request} {d : Decision} {ds : List Decision} (hsends : w.Sends r d next)
    (hrest : SendsAlong w next ds inner) : SendsAlong w r (d :: ds) inner

variable {w u : World} {r inner : Request} {d : Decision} {sent ds : List Decision}
  {outcome : Except Fault Dispatched} {calls : Nat} {m : Method Target} {ignoreVisibility : Bool}
  {v : Value} {mode : Mode}

theorem Sends.receiver_eq (hsends : w.Sends r d inner) : inner.receiver = r.receiver := by
  cases hsends
  rfl

theorem SendsAlong.receiver_eq (hsends : w.SendsAlong r sent inner) : inner.receiver = r.receiver := by
  induction hsends with
  | one hsends => exact hsends.receiver_eq
  | more hsends _ ih => exact ih.trans hsends.receiver_eq

/-- The call that is made is made afresh, and has to run a method. -/
theorem Sends.exists_mode (hsends : w.Sends r d inner) :
    ∃ mode, inner.route = .uncached mode ∧ mode.isRespondTo = false ∧ mode.returnsMissing = false := by
  cases hsends with
  | @intro m ignoreVisibility v args name hruns hargs hname =>
    exact ⟨_, rfl, by cases ignoreVisibility <;> rfl, by cases ignoreVisibility <;> rfl⟩

theorem SendsAlong.exists_mode (hsends : w.SendsAlong r sent inner) :
    ∃ mode, inner.route = .uncached mode ∧ mode.isRespondTo = false ∧ mode.returnsMissing = false := by
  induction hsends with
  | one hsends => exact hsends.exists_mode
  | more _ _ ih => exact ih

/-- A method for sending by name that is named again and again, to any depth, makes a chain whose last call
is one of the receiver on itself. -/
theorem sendsAlong_nested {block : Option Block} {name inner : Symbol} {args : List Value}
    (hnested : ∀ args, w.RunsBody ⟨.uncached .privateCall, v, name, args, block⟩ m Kernel.send)
    (depth : Nat) {r : Request} {m' : Method Target} (hruns : w.RunsBody r m' Kernel.send)
    (hreceiver : r.receiver = v) (hblock : r.block = block)
    (hargs : r.args = List.replicate depth (.symbol name) ++ .symbol inner :: args) :
    ∃ sent, sent.length = depth + 1 ∧
      w.SendsAlong r sent ⟨.uncached .privateCall, v, inner, args, block⟩ := by
  induction depth generalizing r m' with
  | zero =>
    subst hreceiver hblock
    exact ⟨_, rfl, .one (.intro hruns hargs rfl)⟩
  | succ depth ih =>
    obtain ⟨sent, hlength, hrest⟩ := ih (hnested _) rfl rfl rfl
    subst hreceiver hblock
    exact ⟨_ :: sent, by rw [List.length_cons, hlength], .more (.intro hruns hargs rfl) hrest⟩

/-- A call that is told nothing if it finds no method is never answered without running one. -/
theorem Sound.verdict_ne_answer (hw : w.Sound) (hcalls : mode.isRespondTo = false)
    (hraises : mode.returnsMissing = false) (hnative : r.receiver.isForeign = false)
    (answer : Dispatched) : w.verdict r mode ≠ .answer answer := by
  intro hanswer
  rcases hw.verdict_of_call hcalls hnative with ⟨m, -, hverdict⟩ | ⟨-, hmissing⟩
  · rw [hanswer] at hverdict
    cases hverdict
  · rw [hanswer] at hmissing
    cases hmissing with
    | told hreturns =>
      rw [hraises] at hreturns
      cases hreturns

namespace Behind

variable (hu : w.Behind v calls u) (hw : w.Sound) (hidle : w.safepoints.isIdle = true)
  (hclass : w.HasClass v) (hnative : v.isForeign = false)

include hu hw hidle hclass hnative

/-- What a call that has to run a method comes to is a value or a fault. -/
theorem returns_of_call (hmode : r.route.mode? w.modes = some mode) (hcalls : mode.isRespondTo = false)
    (hraises : mode.returnsMissing = false) (hreceiver : r.receiver = v) {thread : ThreadId}
    {w' : World} (hends : (Machine.ofRequest u thread r).Ends ds outcome w') :
    Machine.Returns outcome := by
  subst hreceiver
  obtain ⟨u', hleads, -⟩ := hu.call hw hidle hclass hmode rfl thread []
  obtain ⟨rest, -, hrest⟩ := hleads.ends_iff.mp hends
  have hscripted := Machine.scripted_ofDecision u' thread fun d =>
    hw.verdict_ne_answer hcalls hraises hnative d
  exact hscripted.returns hrest

/-- A call that sends by name comes to what the call comes to that it makes. -/
theorem relays_sends (hsends : w.Sends r d inner) (hreceiver : r.receiver = v) (thread : ThreadId) :
    ∃ u', w.Behind v (calls + 1) u' ∧
      (Machine.ofRequest u thread r).Relays [d] id (.ofRequest u' thread inner) := by
  have hinner := hsends.receiver_eq.trans hreceiver
  obtain ⟨mode, hroute, hcalls, hraises⟩ := hsends.exists_mode
  have hmode : inner.route.mode? w.modes = some mode := by
    rw [hroute]
    rfl
  cases hsends with
  | @intro m ignoreVisibility v' args name hruns hargs hname =>
    obtain ⟨u', hu', hleads⟩ := hu.runs_body hw hidle hclass hnative hruns hreceiver thread
    have hscript : Kernel.sendWith ignoreVisibility ⟨m.info, r.receiver, r.args, r.block.isSome⟩ =
        .send r.receiver name args .callers ignoreVisibility fun v => .answer v := by
      simp [Kernel.sendWith, Kernel.checkingArity, Arity.admits, Arity.atLeast, Kernel.withName, hargs,
        hname]
    rw [hscript] at hleads
    have hsend := Machine.relays_send u' thread r.receiver name args .callers ignoreVisibility id r.block
    -- What the call comes to is a value or a fault already, so that nothing is lost on the way back.
    exact ⟨u', hu', (hleads.relays.trans hsend).congr fun hends =>
      (hu'.returns_of_call hw hidle hclass hnative hmode hcalls hraises hinner hends).map_toValue⟩

/-- A chain of calls that send by name comes to what its last call comes to. -/
theorem relays_sendsAlong (hsends : w.SendsAlong r sent inner) (hreceiver : r.receiver = v)
    (thread : ThreadId) :
    ∃ u', w.Behind v (calls + sent.length) u' ∧
      (Machine.ofRequest u thread r).Relays sent id (.ofRequest u' thread inner) := by
  induction hsends generalizing u calls with
  | one hsends => exact hu.relays_sends hw hidle hclass hnative hsends hreceiver thread
  | @more r next inner d sent hsends _ ih =>
    obtain ⟨u₁, hu₁, hfirst⟩ := hu.relays_sends hw hidle hclass hnative hsends hreceiver thread
    obtain ⟨u', hu', hrest⟩ := ih hu₁ (hsends.receiver_eq.trans hreceiver)
    refine ⟨u', ?_, hfirst.trans hrest⟩
    rwa [List.length_cons, Nat.add_comm sent.length, ← Nat.add_assoc]

end Behind

/-- Behind one call more or less of the same receiver, worlds differ in the number of polls, and in nothing
else that can be seen. -/
theorem Behind.exists_twins {v : Value} {u₁ : World} (hu₁ : w.Behind v 1 u₁)
    (hu : w.Behind v (calls + 1) u) :
    ∃ u', u = u'.polledMore calls ∧ Twins w.modes u₁ u' := by
  have halike₁ := hu₁.alike_of_ne_zero Nat.one_ne_zero
  have halike := hu.alike_of_ne_zero (Nat.succ_ne_zero calls)
  rw [Safepoints.iterate_passed] at halike
  refine ⟨u.withSafepoints w.safepoints.passed, ?_, ?_, hu₁.sound, ?_, ?_⟩
  · have hsafepoints : u.safepoints = w.safepoints.passed.polledMore calls := halike.safepoints
    rw [polledMore, withSafepoints, withSafepoints, ← hsafepoints]
  · refine halike₁.symm.trans ?_
    exact { halike with safepoints := rfl }
  · exact hu.sound.of_eq rfl rfl rfl rfl
  · exact hu₁.alike_safepoints.modes

/-- What a call comes to behind a number of other calls of the same receiver is what it would have come to
before them. -/
theorem Behind.ends_direct {v : Value} (hu : w.Behind v calls u) (hw : w.Sound)
    (hidle : w.safepoints.isIdle = true) (hclass : w.HasClass v) {direct : Request}
    (hmode : inner.route.mode? w.modes = some mode) (hsame : inner.Alike w.modes direct)
    (hreceiver : inner.receiver = v) (thread : ThreadId)
    (hsteady : (Machine.ofRequest w thread direct).Steady) :
    (∀ ds outcome w', (Machine.ofRequest w thread direct).Ends ds outcome w' →
      ∃ u', (Machine.ofRequest u thread inner).Ends ds outcome u' ∧
        u'.face = (w'.polledMore calls).face) ∧
    ∀ ds outcome u', (Machine.ofRequest u thread inner).Ends ds outcome u' →
      ∃ w', (Machine.ofRequest w thread direct).Ends ds outcome w' ∧
        u'.face = (w'.polledMore calls).face := by
  have hmode' : direct.route.mode? w.modes = some mode := by rw [hsame.mode, hmode]
  obtain ⟨u₁, hleads₁, hu₁⟩ := (hw.behind_refl v).call hw hidle hclass hmode'
    (hsame.receiver.trans hreceiver) thread []
  obtain ⟨u₂, hleads, hu₂⟩ := hu.call hw hidle hclass hmode hreceiver thread []
  rw [verdict_of_alike hsame] at hleads₁
  obtain ⟨u', rfl, htwins⟩ := hu₁.exists_twins hu₂
  have halike : (Machine.ofDecision u₁ thread (w.verdict inner mode)).AlikeBy w.modes (· = ·)
      (.ofDecision u' thread (w.verdict inner mode)) :=
    ⟨htwins, rfl, Machine.Control.alike_ofDecision _ _, .nil⟩
  have hlock := (Machine.lockstep_steady w.modes).comp (Machine.lockstep_polledMore calls)
  have hinstep : ∃ n, ((Machine.ofDecision u₁ thread (w.verdict inner mode)).AlikeBy w.modes (· = ·) n ∧
      (Machine.ofDecision u₁ thread (w.verdict inner mode)).Steady) ∧
        Machine.ofDecision (u'.polledMore calls) thread (w.verdict inner mode) = n.polledMore calls :=
    ⟨_, ⟨halike, hsteady.of_leads hleads₁⟩, rfl⟩
  constructor
  · intro ds outcome w' hends
    obtain ⟨rest, rfl, hrest⟩ := hleads₁.ends_iff.mp hends
    obtain ⟨_, hends', u'', htwins', rfl⟩ := hlock.ends hinstep hrest
    exact ⟨_, hleads.ends_iff.mpr ⟨rest, rfl, hends'⟩, (htwins'.alike.polledMore calls).face_eq⟩
  · intro ds outcome _ hends
    obtain ⟨rest, rfl, hrest⟩ := hleads.ends_iff.mp hends
    obtain ⟨w', hends', u'', htwins', rfl⟩ := hlock.ends_of_ends hinstep hrest
    exact ⟨w', hleads₁.ends_iff.mpr ⟨rest, rfl, hends'⟩, (htwins'.alike.polledMore calls).face_eq⟩

/-- A call comes to what another one would come to in its place, behind some decisions: it runs the same
methods with the same arguments, comes to the same outcome, and leaves a world that differs only in the
number of polls, in counters, and in what is remembered. -/
def CollapsesTo (w : World) (thread : ThreadId) (r : Request) (sent : List Decision)
    (direct : Request) : Prop :=
  (∀ ds outcome w', (Machine.ofRequest w thread direct).Ends ds outcome w' →
    ∃ u', (Machine.ofRequest w thread r).Ends (sent ++ ds) outcome u' ∧
      u'.face = (w'.polledMore sent.length).face) ∧
  ∀ ds outcome u', (Machine.ofRequest w thread r).Ends ds outcome u' →
    ∃ rest w', ds = sent ++ rest ∧ (Machine.ofRequest w thread direct).Ends rest outcome w' ∧
      u'.face = (w'.polledMore sent.length).face

section

variable (hw : w.Sound) (hidle : w.safepoints.isIdle = true) (hnative : r.receiver.isForeign = false)
  (hclass : w.HasClass r.receiver)

include hw hidle hnative hclass

/-- In place of a chain of calls that send by name, its last call could as well be made directly. -/
theorem SendsAlong.collapsesTo (hsends : w.SendsAlong r sent inner) {direct : Request}
    (hsame : inner.Alike w.modes direct) {thread : ThreadId}
    (hsteady : (Machine.ofRequest w thread direct).Steady) : w.CollapsesTo thread r sent direct := by
  obtain ⟨u, hu, hchain⟩ :=
    (hw.behind_refl r.receiver).relays_sendsAlong hw hidle hclass hnative hsends rfl thread
  rw [Nat.zero_add] at hu
  obtain ⟨mode, hroute, -, -⟩ := hsends.exists_mode
  have hmode : inner.route.mode? w.modes = some mode := by
    rw [hroute]
    rfl
  obtain ⟨hto, hback⟩ := hu.ends_direct hw hidle hclass hmode hsame hsends.receiver_eq thread hsteady
  constructor
  · intro ds outcome w' hends
    obtain ⟨u', hinner, hface⟩ := hto ds outcome w' hends
    exact ⟨u', hchain.ends hinner, hface⟩
  · intro ds outcome u' hends
    obtain ⟨rest, outcome, rfl, hinner, rfl⟩ := (hchain ds outcome u').mp hends
    obtain ⟨w', hdirect, hface⟩ := hback rest outcome u' hinner
    exact ⟨rest, w', rfl, hdirect, hface⟩

/-- A call that sends by name without a name comes to the fault that the kernel's method finds. -/
theorem Sound.ends_sendWith_fail (hruns : w.RunsBody r m (Kernel.sendWith ignoreVisibility))
    (thread : ThreadId) {f : Fault}
    (hfail : Kernel.sendWith ignoreVisibility ⟨m.info, r.receiver, r.args, r.block.isSome⟩ = .fail f) :
    ∃ u, w.Behind r.receiver 1 u ∧ (Machine.ofRequest w thread r).Ends
      [.invoke m r.receiver r.args r.block] (.error f) u := by
  obtain ⟨u, hu, hleads⟩ :=
    (hw.behind_refl r.receiver).runs_body hw hidle hclass hnative hruns rfl thread
  rw [hfail] at hleads
  exact ⟨u, hu, _, hleads.trans (.quiet rfl rfl (.refl _)), rfl⟩

end

/-- In every state that a program can bring about, with nothing to do at the safepoint, and for every chain
of calls that send by name to one receiver, of any length and by any routes: the chain comes to exactly what
its last call comes to, behind as many calls as the chain has. It also comes to what this call would come to
if it were made directly instead, by any route of its mode, as long as on the course of the direct call
records are made below records that exist, and calls are made through call sites for receivers whose class
exists. In particular a method for sending that is named again and again, to any depth, comes to a single
call of the receiver on itself.

A call that sends by name, but has no argument, or whose first argument stands for no name, runs nothing
else and fails. -/
theorem sending_by_name (hw : w.Reachable) (hidle : w.safepoints.isIdle = true)
    (hnative : r.receiver.isForeign = false) (hclass : w.HasClass r.receiver) (thread : ThreadId) :
    let sending := Machine.ofRequest w thread r
    (∀ {sent : List Decision} {inner : Request}, w.SendsAlong r sent inner →
      (∃ u, w.Behind r.receiver sent.length u ∧
        sending.Relays sent id (.ofRequest u thread inner)) ∧
      ∀ {direct : Request}, inner.Alike w.modes direct →
        (Machine.ofRequest w thread direct).Steady → w.CollapsesTo thread r sent direct) ∧
    (∀ {m m' : Method Target} {name inner : Symbol} {args : List Value} (depth : Nat),
      (∀ args, w.RunsBody ⟨.uncached .privateCall, r.receiver, name, args, r.block⟩ m Kernel.send) →
      w.RunsBody r m' Kernel.send →
      r.args = List.replicate depth (.symbol name) ++ .symbol inner :: args →
      let direct : Request := ⟨.uncached .privateCall, r.receiver, inner, args, r.block⟩
      (Machine.ofRequest w thread direct).Steady →
        ∃ sent, sent.length = depth + 1 ∧ w.CollapsesTo thread r sent direct) ∧
    ∀ {m : Method Target} {ignoreVisibility : Bool}, w.RunsBody r m (Kernel.sendWith ignoreVisibility) →
      let begun : Decision := .invoke m r.receiver r.args r.block
      (r.args = [] → ∃ f u, f = .wrongArity 0 "1+" ∧ f.kind = .argument ∧ w.Behind r.receiver 1 u ∧
        sending.Ends [begun] (.error f) u) ∧
      ∀ v args, r.args = v :: args → v.name? = none →
        ∃ f u, f = .notAName v.inspect ∧ f.kind = .type ∧ w.Behind r.receiver 1 u ∧
          sending.Ends [begun] (.error f) u := by
  intro sending
  have hsound := hw.sound
  refine ⟨fun hsends => ⟨?_, fun hsame hsteady => ?_⟩, fun depth hnested hruns hargs hsteady => ?_,
    fun {m ignoreVisibility} hruns => ⟨fun hargs => ?_, fun v args hargs hname => ?_⟩⟩
  · obtain ⟨u, hu, hchain⟩ :=
      (hsound.behind_refl r.receiver).relays_sendsAlong hsound hidle hclass hnative hsends rfl thread
    rw [Nat.zero_add] at hu
    exact ⟨u, hu, hchain⟩
  · exact hsends.collapsesTo hsound hidle hnative hclass hsame hsteady
  · obtain ⟨sent, hlength, hsends⟩ := sendsAlong_nested hnested depth hruns rfl rfl hargs
    have hsame := (Request.likens_alike w.modes).refl
    exact ⟨sent, hlength, hsends.collapsesTo hsound hidle hnative hclass (hsame _) hsteady⟩
  · obtain ⟨u, hu, hends⟩ := hsound.ends_sendWith_fail hidle hnative hclass hruns thread
      (f := .wrongArity 0 "1+") (by rw [hargs]; rfl)
    exact ⟨_, u, rfl, rfl, hu, hends⟩
  · obtain ⟨u, hu, hends⟩ := hsound.ends_sendWith_fail hidle hnative hclass hruns thread
      (f := .notAName v.inspect) (by
        simp [Kernel.sendWith, Kernel.checkingArity, Arity.admits, Arity.atLeast, Kernel.withName, hargs,
          hname])
    exact ⟨_, u, rfl, rfl, hu, hends⟩

/-- A chain of two, and the same call through a call site. -/
theorem sending_by_name_nested :
    let receiver : Value := .object ⟨0, ⟨1⟩⟩
    let args : List Value := [.symbol .publicSend, .text ⟨7, "greet"⟩, .nil]
    let chain : Request := ⟨.uncached .publicCall, receiver, .underscoreSend, args, none⟩
    let direct : Request := ⟨.site 0, receiver, ⟨"greet"⟩, [.nil], none⟩
    let w := (start {}).after
      [.edit (.define ⟨1⟩ ⟨"greet"⟩ .pub (.constant (.symbol ⟨"hello"⟩)) {}), .newSite .publicCall 8]
    let outcome : Except Fault Dispatched := .ok (.returned (.symbol ⟨"hello"⟩))
    ∃ sent ds u w', sent.length = 2 ∧ (Machine.ofRequest w ⟨0⟩ direct).Ends ds outcome w' ∧
      (Machine.ofRequest w ⟨0⟩ chain).Ends (sent ++ ds) outcome u ∧
      u.face = (w'.polledMore 2).face := by
  intro receiver args chain direct w outcome
  have hw : w.Reachable := (Reachable.start {}).after (by decide +kernel)
  have hfirst : ((w.lookup (w.effectiveClass receiver) .underscoreSend .publicCall).1.method?.bind
      Method.target).map Target.body = some (Kernel.sendWith true) := by
    unfold w receiver
    with_unfolding_all rfl
  have hsecond : ((w.lookup (w.effectiveClass receiver) .publicSend .privateCall).1.method?.bind
      Method.target).map Target.body = some (Kernel.sendWith false) := by
    unfold w receiver
    with_unfolding_all rfl
  have hmode : direct.route.mode? w.modes = some .publicCall := by decide +kernel
  have hidle : w.safepoints.isIdle = true := by decide +kernel
  have hclass : w.HasClass receiver := by decide +kernel
  have hregular : (Machine.ofRequest w ⟨0⟩ direct).Regular 4 := by decide +kernel
  have hrun : ((Machine.ofRequest w ⟨0⟩ direct).run 4).outcome? = some outcome := by decide +kernel
  clear_value w
  let next : Request := ⟨.uncached .privateCall, receiver, .publicSend, args.tail, none⟩
  let inner : Request := ⟨.uncached .publicCall, receiver, ⟨"greet"⟩, [.nil], none⟩
  obtain ⟨sent, hlength, hchain⟩ : ∃ sent, sent.length = 2 ∧ w.SendsAlong chain sent inner := by
    obtain ⟨m, hruns⟩ : ∃ m, w.RunsBody chain m (Kernel.sendWith true) := exists_runsBody rfl rfl hfirst
    obtain ⟨m', hruns'⟩ : ∃ m', w.RunsBody next m' (Kernel.sendWith false) :=
      exists_runsBody rfl rfl hsecond
    exact ⟨_, rfl, .more (.intro hruns rfl rfl) (.one (.intro hruns' rfl rfl))⟩
  obtain ⟨w', hrun⟩ := Machine.End.exists_halted hrun
  obtain ⟨ds, hdirect⟩ := Machine.exists_ends_iff.mpr ⟨4, hrun⟩
  have hsame : inner.Alike w.modes direct := ⟨hmode, rfl, rfl, rfl, rfl⟩
  obtain ⟨hto, -⟩ := ((sending_by_name hw hidle rfl hclass ⟨0⟩).1 hchain).2 hsame
    (Machine.steady_of_regular (Machine.regular_of_halted hrun hregular))
  obtain ⟨u, hsends, hface⟩ := hto ds outcome w' hdirect
  rw [hlength] at hface
  exact ⟨sent, ds, u, w', hlength, hdirect, hsends, hface⟩

/-- A method calls through a call site with no room for entries, on an object whose class does not exist. Called
directly, the site refuses the object. Sent through the same site, the method comes to it when the site has
seen too many already, and goes on to look for a hook. -/
theorem sending_through_site_differs :
    let stray : Value := .object ⟨0, ⟨99⟩⟩
    let receiver : Value := .object ⟨1, ⟨1⟩⟩
    let body : Body := fun _ => .sendVia 0 stray ⟨"nowhere"⟩ [] .answer
    let w := (start {}).after [.newSite .publicCall 0, .edit (.define ⟨1⟩ ⟨"run"⟩ .pub body {})]
    let sending : Request := ⟨.site 0, receiver, .send, [.symbol ⟨"run"⟩], none⟩
    let direct : Request := ⟨.uncached .privateCall, receiver, ⟨"run"⟩, [], none⟩
    w.Reachable ∧ w.safepoints.isIdle = true ∧ w.HasClass receiver ∧
      ((Machine.ofRequest w ⟨0⟩ direct).run 10).outcome? = some (.error (.unknownClass ⟨99⟩)) ∧
      ((Machine.ofRequest w ⟨0⟩ sending).run 20).outcome? =
        some (.error (.hookMissing "an instance of #<Class:99>" ⟨"nowhere"⟩)) := by
  intro stray receiver body w sending direct
  exact ⟨(Reachable.start {}).after (by decide +kernel), by decide +kernel, by decide +kernel,
    by decide +kernel, by decide +kernel⟩

end World

end LateBinding
