import LateBinding.Proofs.Machine.Courses
import LateBinding.Proofs.Machine.SiteHistories

namespace LateBinding

/-- One request asks for the method that another one calls: the receiver and the name are the same, and so
are the flags that say which methods may be found, as in a mode and the one that asks for the same
(`Mode.asking`). The routes may differ. -/
structure Request.Probes (ask call : Request) (modes : Array Mode) (asking calling : Mode) :
    Prop where
  ask_mode : ask.route.mode? modes = some asking
  call_mode : call.route.mode? modes = some calling
  asks : asking.isRespondTo = true
  calls : calling.isRespondTo = false
  ignoreVisibility_eq : asking.ignoreVisibility = calling.ignoreVisibility
  onlyPublic_eq : asking.onlyPublic = calling.onlyPublic
  receiver_eq : ask.receiver = call.receiver
  name_eq : ask.name = call.name

/-- Modes with the same flags find the same. -/
theorem Mode.lookup_eq_of_flags {τ : Type} {mode mode' : Mode} {walk : Walk τ}
    (hignore : mode.ignoreVisibility = mode'.ignoreVisibility)
    (honly : mode.onlyPublic = mode'.onlyPublic) : walk.lookup mode = walk.lookup mode' := by
  have hallows : mode.allows = mode'.allows := by
    funext v
    simp only [allows, hignore, honly]
  rw [Walk.lookup, Walk.lookup, hallows]

theorem Lookup.method?_eq_some_iff {τ : Type} {lookup : Lookup τ} {m : Method τ} :
    lookup.method? = some m ↔ lookup = .found m := by
  cases lookup <;> simp [method?]

/-- A machine comes to an answer without running a script: in one step, or in two because it sees first
that there is nothing to do at the safepoint. -/
def Machine.AnswersAtOnce (m : Machine) (d : Dispatched) (world : World) : Prop :=
  let answered := { m with world, control := .result (.ok d) }
  m.step = .next answered ∨
    ∃ polling r, m.step = .next polling ∧ polling.control = .poll r ∧
      polling.step = .next answered

namespace World

/-- The look-up for a call finds a method in a given mode. -/
def Resolves (w : World) (r : Request) (mode : Mode) (m : Method Target) : Prop :=
  (w.lookup (w.effectiveClass r.receiver) r.name mode).1 = .found m

/-- A call is decided as a call without a method is in a given mode: the caller is told, or the hook of the
receiver is run with the name in front of the arguments. If there is no hook either, the call fails. -/
inductive GoesMissing (w : World) (r : Request) (mode : Mode) : Decision → Prop where
  | told (h : mode.returnsMissing = true) : GoesMissing w r mode (.answer .missing)
  | hook (h : mode.returnsMissing = false) {hook : Method Target}
    (hhook : (w.findMethod r.receiver .methodMissing).1 = some hook) :
    GoesMissing w r mode (.invoke hook r.receiver (.symbol r.name :: r.args) r.block)
  | noHook (h : mode.returnsMissing = false)
    (hhook : (w.findMethod r.receiver .methodMissing).1 = none) :
    GoesMissing w r mode (.fail (.hookMissing (w.core.describe w.hierarchy r.receiver) r.name))

variable {w : World} {ask call r : Request} {asking calling mode : Mode} {m : Method Target}

theorem Sound.resolves_iff (hw : w.Sound) :
    w.Resolves r mode m ↔
      (w.hierarchy.view (w.effectiveClass r.receiver) r.name).lookup mode = .found m := by
  rw [Resolves, (hw.lookup_spec ..).1]

theorem Sound.goesMissing_missing (hw : w.Sound) (hcalls : mode.isRespondTo = false) (r : Request) :
    w.GoesMissing r mode (w.missing r mode) := by
  have hfind := (hw.findMethod_spec r.receiver .methodMissing).1
  rw [missing, hcalls, if_neg Bool.false_ne_true]
  split
  · rename_i hreturns
    exact .told hreturns
  · rename_i hreturns
    rw [Bool.not_eq_true] at hreturns
    rw [← hfind]
    split
    · rename_i hook hhook
      exact .hook hreturns hhook
    · rename_i hhook
      exact .noHook hreturns hhook

/-- A call that goes missing runs no method with the arguments of the call alone. -/
theorem GoesMissing.ne_invoke {d : Decision} (hd : w.GoesMissing r mode d) (m : Method Target) :
    d ≠ .invoke m r.receiver r.args r.block := by
  intro hinvoke
  cases hd with
  | told | noHook => cases hinvoke
  | hook =>
    have hlength := congrArg List.length (Decision.invoke.inj hinvoke).2.2.1
    simp at hlength

/-- A call is to run the method that it finds, or to go missing because it finds none. -/
theorem Sound.verdict_of_call (hw : w.Sound) (hcalls : mode.isRespondTo = false)
    (hnative : r.receiver.isForeign = false) :
    (∃ m, w.Resolves r mode m ∧ w.verdict r mode = .invoke m r.receiver r.args r.block) ∨
      (∀ m, ¬ w.Resolves r mode m) ∧ w.GoesMissing r mode (w.verdict r mode) := by
  rw [verdict_native hnative]
  simp only [hw.resolves_iff]
  cases (w.hierarchy.view (w.effectiveClass r.receiver) r.name).lookup mode with
  | found m =>
    refine .inl ⟨m, rfl, ?_⟩
    rw [judge, Request.found, hcalls, if_neg Bool.false_ne_true]
  | _ => exact .inr ⟨by simp, hw.goesMissing_missing hcalls r⟩

/-- A call that asks is answered by what it finds. -/
theorem Sound.verdict_of_ask (hw : w.Sound) (hasks : mode.isRespondTo = true)
    (hnative : r.receiver.isForeign = false) :
    ∃ b, w.verdict r mode = .answer (.responds b) ∧
      (b = true ↔ ∃ m, w.Resolves r mode m ∧ m.isUnimplemented = false) := by
  rw [verdict_native hnative]
  simp only [hw.resolves_iff]
  cases (w.hierarchy.view (w.effectiveClass r.receiver) r.name).lookup mode with
  | found m =>
    refine ⟨!m.isUnimplemented, ?_, by simp⟩
    rw [judge, Request.found, hasks, if_pos rfl]
  | _ =>
    refine ⟨false, ?_, by simp⟩
    simp only [judge, missing, hasks, if_true]

/-- A call of a foreign object is decided by the object, unless the site of the call does not exist. -/
theorem decide_foreign (hforeign : r.receiver.isForeign = true) :
    (w.decide r).1 = .answer .missing ∨ ∃ (object : ForeignObject) (f : ForeignRef) (mode : Mode),
      (w.decide r).1 = .ofOutcome (object.dispatch f r.name r.args mode) := by
  obtain ⟨route, receiver, name, args, block⟩ := r
  cases receiver with
  | foreign f =>
    rw [World.decide]
    split
    · exact .inr ⟨w.foreignObject f, f, _, rfl⟩
    · split
      · exact .inr ⟨w.foreignObject f, f, _, rfl⟩
      · exact .inl rfl
  | _ => cases hforeign

/-- A call of a foreign object runs no method. -/
theorem decide_foreign_ne_invoke (hforeign : r.receiver.isForeign = true) (m : Method Target)
    (receiver : Value) (args : List Value) (block : Option Block) :
    (w.decide r).1 ≠ .invoke m receiver args block := by
  rcases decide_foreign (w := w) hforeign with hmissing | ⟨object, f, mode, hdecide⟩
  · simp [hmissing]
  · rw [hdecide]
    cases object.dispatch f r.name r.args mode <;> simp [Decision.ofOutcome]

theorem Resolves.unique {m' : Method Target} (hm : w.Resolves r mode m)
    (hm' : w.Resolves r mode m') : m' = m :=
  Lookup.found.inj (hm'.symm.trans hm)

theorem Sound.allows_of_resolves (hw : w.Sound) (hm : w.Resolves r mode m) :
    mode.allows m.visibility = true :=
  (Walk.lookup_eq_found_iff.mp (hw.resolves_iff.mp hm)).2

theorem Sound.resolves_iff_of_probes (hw : w.Sound) {modes : Array Mode}
    (hprobes : ask.Probes call modes asking calling) :
    w.Resolves ask asking m ↔ w.Resolves call calling m := by
  rw [hw.resolves_iff, hw.resolves_iff, hprobes.receiver_eq, hprobes.name_eq,
    Mode.lookup_eq_of_flags hprobes.ignoreVisibility_eq hprobes.onlyPublic_eq]

/-- What a call is decided to do does not depend on the safepoints. -/
theorem verdict_safepoints (w : World) (r : Request) (mode : Mode)
    (safepoints : Safepoints Script) :
    { w with safepoints }.verdict r mode = w.verdict r mode := by
  obtain ⟨route, receiver, name, args, block⟩ := r
  cases receiver <;> rfl

/-- A call runs the method that it finds, or goes missing because it finds none. -/
theorem Sound.decide_call (hw : w.Sound) (hmode : r.route.mode? w.modes = some mode)
    (hcalls : mode.isRespondTo = false) (hnative : r.receiver.isForeign = false)
    (hclass : w.HasClass r.receiver) :
    (∃ m, w.Resolves r mode m ∧ (w.decide r).1 = .invoke m r.receiver r.args r.block) ∨
      (∀ m, ¬ w.Resolves r mode m) ∧ w.GoesMissing r mode (w.decide r).1 := by
  rw [(hw.decide_settles hmode fun _ => hw.effectiveClass_known hclass).decision]
  exact hw.verdict_of_call hcalls hnative

/-- A call that asks is answered by what the call does that it asks about. -/
theorem Sound.answer_iff_call (hw : w.Sound) (hprobes : ask.Probes call w.modes asking calling)
    (hnative : call.receiver.isForeign = false) (hclass : w.HasClass call.receiver) {b : Bool}
    (hb : b = true ↔ ∃ m, w.Resolves ask asking m ∧ m.isUnimplemented = false) :
    (b = true ↔ ∃ m, w.Resolves call calling m ∧ m.isUnimplemented = false ∧
      (w.decide call).1 = .invoke m call.receiver call.args call.block) ∧
    (b = false ↔ w.GoesMissing call calling (w.decide call).1 ∨
      ∃ m, w.Resolves call calling m ∧ m.isUnimplemented = true ∧
        (w.decide call).1 = .invoke m call.receiver call.args call.block) := by
  simp only [hw.resolves_iff_of_probes hprobes] at hb
  rcases hw.decide_call hprobes.call_mode hprobes.calls hnative hclass with
    ⟨m₀, hm₀, hinvoke⟩ | ⟨hnone, hmissing⟩
  · -- The method that the call runs is the only one that it finds.
    have hunique {p : Bool} : (∃ m, w.Resolves call calling m ∧ m.isUnimplemented = p ∧
        (w.decide call).1 = .invoke m call.receiver call.args call.block) ↔
          m₀.isUnimplemented = p := by
      constructor
      · rintro ⟨m, hm, hp, -⟩
        rwa [← hm₀.unique hm]
      · exact fun hp => ⟨m₀, hm₀, hp, hinvoke⟩
    have hb₀ : b = true ↔ m₀.isUnimplemented = false := by
      rw [hb]
      constructor
      · rintro ⟨m, hm, hp⟩
        rwa [← hm₀.unique hm]
      · exact fun hp => ⟨m₀, hm₀, hp⟩
    have hnot : ¬ w.GoesMissing call calling (w.decide call).1 :=
      fun hmissing => hmissing.ne_invoke m₀ hinvoke
    rw [hunique, hunique, hb₀, or_iff_right hnot]
    refine ⟨Iff.rfl, ?_⟩
    rw [← Bool.not_eq_true, hb₀, Bool.not_eq_false]
  · have hfalse : b = false := by
      rw [← Bool.not_eq_true, hb]
      rintro ⟨m, hm, -⟩
      exact hnone m hm
    refine ⟨iff_of_false (by simp [hfalse]) ?_, iff_of_true hfalse (.inl hmissing)⟩
    rintro ⟨m, hm, -⟩
    exact hnone m hm

/-- A call runs the method that it finds, or the hook with the name in front of the arguments. -/
theorem Sound.invoke_cases (hw : w.Sound) {receiver : Value} {args : List Value}
    {block : Option Block} (hinvoke : (w.decide r).1 = .invoke m receiver args block) :
    ∃ mode, r.route.mode? w.modes = some mode ∧ mode.isRespondTo = false ∧
      receiver = r.receiver ∧ block = r.block ∧
      (w.Resolves r mode m ∧ mode.allows m.visibility = true ∧ args = r.args ∨
        mode.returnsMissing = false ∧ (∀ m, ¬ w.Resolves r mode m) ∧
          (w.findMethod r.receiver .methodMissing).1 = some m ∧
          args = .symbol r.name :: r.args) := by
  cases hforeign : r.receiver.isForeign with
  | true => exact absurd hinvoke (decide_foreign_ne_invoke hforeign m receiver args block)
  | false =>
    rcases hw.decide_native hforeign with ⟨mode, hmode, hverdict⟩ | hfail | hanswer
    · rw [hinvoke] at hverdict
      cases hasks : mode.isRespondTo with
      | true =>
        obtain ⟨b, hb, -⟩ := hw.verdict_of_ask hasks hforeign
        rw [hb] at hverdict
        cases hverdict
      | false =>
        rcases hw.verdict_of_call hasks hforeign with ⟨m₀, hm₀, hruns⟩ | ⟨hnone, hmissing⟩
        · obtain ⟨rfl, rfl, rfl, rfl⟩ := Decision.invoke.inj (hverdict.trans hruns)
          exact ⟨mode, hmode, hasks, rfl, rfl, .inl ⟨hm₀, hw.allows_of_resolves hm₀, rfl⟩⟩
        · rw [← hverdict] at hmissing
          cases hmissing with
          | hook hraises hhook =>
            exact ⟨mode, hmode, hasks, rfl, rfl, .inr ⟨hraises, hnone, hhook, rfl⟩⟩
    · rw [hinvoke] at hfail
      cases hfail
    · rw [hinvoke] at hanswer
      cases hanswer

/-- With nothing to do at the safepoint, a call that is answered by a decision is answered at once. -/
theorem answersAtOnce_of_decide {d : Dispatched} (hidle : w.safepoints.isIdle = true)
    (hdecide : ∀ safepoints, ({ w with safepoints }.decide r).1 = .answer d) (thread : ThreadId)
    (stack : List Waiting) :
    ∃ safepoints, (⟨w, thread, .arrive (some r), stack⟩ : Machine).AnswersAtOnce d
      ({ w with safepoints }.decide r).2 := by
  refine ⟨w.safepoints.passed, ?_⟩
  have hcases := Machine.step_of_idle hidle thread r stack
  simp only [hdecide] at hcases
  rcases hcases with ⟨hstep, -⟩ | ⟨polling, hsees, -, hpoll, hstep, -⟩
  · exact .inl hstep
  · exact .inr ⟨polling, some r, hsees, hpoll, hstep⟩

/-- In every state that a program can bring about, and whatever the routes of the two calls are: with
nothing to do at the safepoint, a call that asks comes to an answer without running a script, and changes
nothing that can be seen. It answers yes exactly if a call with the same flags runs the method that it
finds, and this method counts as an answer to its name; it answers no exactly if the call goes missing, or
runs a method that does not count.

No call runs a method that its mode hides, or any other but the one that it finds, except for the hook,
and that only if the mode does not say that the caller is to be told. -/
theorem respondTo_iff_call (hw : w.Reachable) :
    (∀ {ask call : Request} {asking calling : Mode}, ask.Probes call w.modes asking calling →
      call.receiver.isForeign = false → w.HasClass call.receiver → w.safepoints.isIdle = true →
      ∀ thread stack, ∃ b world,
        (⟨w, thread, .arrive (some ask), stack⟩ : Machine).AnswersAtOnce (.responds b) world ∧
        world.hierarchy.forget = w.hierarchy.forget ∧
        world.face = { w.face with
          hierarchy := world.hierarchy
          safepoints := world.safepoints } ∧
        (b = true ↔ ∃ m, w.Resolves call calling m ∧ m.isUnimplemented = false ∧
          (w.decide call).1 = .invoke m call.receiver call.args call.block) ∧
        (b = false ↔ w.GoesMissing call calling (w.decide call).1 ∨
          ∃ m, w.Resolves call calling m ∧ m.isUnimplemented = true ∧
            (w.decide call).1 = .invoke m call.receiver call.args call.block)) ∧
    ∀ (r : Request) (m : Method Target) (receiver : Value) (args : List Value)
      (block : Option Block), (w.decide r).1 = .invoke m receiver args block →
      ∃ mode, r.route.mode? w.modes = some mode ∧ mode.isRespondTo = false ∧
        receiver = r.receiver ∧ block = r.block ∧
        (w.Resolves r mode m ∧ mode.allows m.visibility = true ∧ args = r.args ∨
          mode.returnsMissing = false ∧ (∀ m, ¬ w.Resolves r mode m) ∧
            (w.findMethod r.receiver .methodMissing).1 = some m ∧
            args = .symbol r.name :: r.args) := by
  have hsound := hw.sound
  refine ⟨?_, fun r m receiver args block hinvoke => hsound.invoke_cases hinvoke⟩
  intro ask call asking calling hprobes hnative hclass hidle thread stack
  have hnativeAsk : ask.receiver.isForeign = false := by rw [hprobes.receiver_eq, hnative]
  have hknownAsk : w.hierarchy.Knows (w.effectiveClass ask.receiver) := by
    rw [hprobes.receiver_eq]
    exact hsound.effectiveClass_known hclass
  have hsettles (safepoints : Safepoints Script) :=
    (hw.safepoints safepoints).sound.decide_settles (r := ask) hprobes.ask_mode fun _ => hknownAsk
  obtain ⟨b, hanswer, hb⟩ := hsound.verdict_of_ask hprobes.asks hnativeAsk
  obtain ⟨safepoints, hat⟩ := answersAtOnce_of_decide hidle (fun safepoints => by
    rw [(hsettles safepoints).decision, verdict_safepoints, hanswer]) thread stack
  obtain ⟨hyes, hno⟩ := hsound.answer_iff_call hprobes hnative hclass hb
  refine ⟨b, _, hat, ?_, ?_, hyes, hno⟩
  · exact ((hw.safepoints safepoints).sound.recalls_decide ask).forget_eq
  · have halike := (hsettles safepoints).alike
    rw [halike.face_eq, halike.hierarchy, halike.safepoints, settle_native hnativeAsk]
    rfl

/-- Asking at a site that has seen too many for a method that does not count, which a call would run. -/
theorem respondTo_iff_call_unimplemented :
    let receiver : Value := .object ⟨0, ⟨1⟩⟩
    let ask : Request := ⟨.site 0, receiver, ⟨"stub"⟩, [], none⟩
    let call : Request := ⟨.uncached .publicCall, receiver, ⟨"stub"⟩, [.nil], none⟩
    let w := (start {}).after
      [.edit (.define ⟨1⟩ ⟨"stub"⟩ .pub (.constant .nil) { unimplemented := true }),
        .newSite .publicRespond 0, .decide ask]
    (w.sites[0]?.map CallSite.isMegamorphic) = some true ∧
      ask.Probes call w.modes .publicRespond .publicCall ∧ w.HasClass receiver ∧
      (∃ m, w.Resolves call .publicCall m ∧ m.isUnimplemented = true ∧
        (w.decide call).1 = .invoke m receiver call.args call.block) ∧
      ∃ world, (⟨w, ⟨0⟩, .arrive (some ask), []⟩ : Machine).AnswersAtOnce (.responds false) world := by
  intro receiver ask call w
  have hw : w.Reachable := (Reachable.start {}).after (by decide +kernel)
  have hclass : w.HasClass receiver := by decide +kernel
  have hprobes : ask.Probes call w.modes .publicRespond .publicCall :=
    ⟨by decide +kernel, rfl, rfl, rfl, rfl, rfl, rfl, rfl⟩
  obtain ⟨b, world, hat, -, -, hyes, hno⟩ :=
    (respondTo_iff_call hw).1 hprobes rfl hclass (by decide +kernel) ⟨0⟩ []
  obtain ⟨m, hm, hstub⟩ : ∃ m, w.Resolves call .publicCall m ∧ m.isUnimplemented = true := by
    have hfound : (w.lookup (w.effectiveClass receiver) ⟨"stub"⟩ .publicCall).1.method?.map
        Method.isUnimplemented = some true := by decide +kernel
    obtain ⟨m, hm, hstub⟩ := Option.map_eq_some_iff.mp hfound
    exact ⟨m, Lookup.method?_eq_some_iff.mp hm, hstub⟩
  cases b with
  | true =>
    obtain ⟨m', hm', hcounts, -⟩ := hyes.mp rfl
    rw [hm.unique hm', hstub] at hcounts
    cases hcounts
  | false =>
    refine ⟨by decide +kernel, hprobes, hclass, ?_, world, hat⟩
    rcases hno.mp rfl with hmissing | hruns
    · rcases hw.sound.decide_call hprobes.call_mode rfl rfl hclass with ⟨m', -, hinvoke⟩ | ⟨hnone, -⟩
      · exact absurd hinvoke (hmissing.ne_invoke m')
      · exact absurd hm (hnone m)
    · exact hruns

end World

end LateBinding
