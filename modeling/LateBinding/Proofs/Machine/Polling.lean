import LateBinding.Machine

namespace LateBinding

/-- A script that makes no calls and runs no methods, and submits none that does. What it asks of the
runtime is answered without a poll. -/
inductive Script.Quiet : Script → Prop where
  | done (outcome : Except Fault Value) : Quiet (.done outcome)
  | «yield» {args : List Value} {k : Except Fault Dispatched → Script}
    (hk : Quiet (k (.error .noBlockGiven))) : Quiet (.yield args k)
  | edit {e : Edit Body} {k : Except Fault Edited → Script} (hk : ∀ outcome, Quiet (k outcome)) :
    Quiet (.edit e k)
  | submit {action k : Script} (haction : Quiet action) (hk : Quiet k) : Quiet (.submit action k)
  | ask {q : Query} {k : q.Answer → Script} (hk : ∀ answer, Quiet (k answer)) : Quiet (.ask q k)

namespace Safepoints

variable {α : Type} {s s' : Safepoints α}

/-- The same actions wait, the same pauses are held, and as many actions have been begun. -/
structure SameQueue (s s' : Safepoints α) : Prop where
  requested_eq : s'.requested = s.requested
  actions_eq : s'.actions = s.actions
  holders_eq : s'.holders = s.holders
  actionsRun_eq : s'.actionsRun = s.actionsRun

theorem SameQueue.refl (s : Safepoints α) : s.SameQueue s := ⟨rfl, rfl, rfl, rfl⟩

theorem sameQueue_arrive (s : Safepoints α) : s.SameQueue s.arrive.2 := by
  rw [arrive]
  split <;> exact ⟨rfl, rfl, rfl, rfl⟩

theorem SameQueue.coherent (hsame : s.SameQueue s') (hs : s.Coherent) : s'.Coherent := by
  rw [Coherent, isIdle, hsame.requested_eq, hsame.actions_eq, hsame.holders_eq]
  exact hs

theorem coherent_iff : s.Coherent ↔ (s.requested = true ↔ s.actions ≠ [] ∨ s.holders ≠ []) := by
  rw [Coherent, isIdle]
  cases s.actions <;> cases s.holders <;> simp

theorem Coherent.eq_nil_of_not_requested (hs : s.Coherent) (hrequested : s.requested = false) :
    s.actions = [] ∧ s.holders = [] := by
  rw [coherent_iff, hrequested] at hs
  simpa [not_or] using hs

/-- The second state has the oldest action taken from the queue of the first one, to be run. -/
structure Takes (s : Safepoints α) (action : α) (s' : Safepoints α) : Prop where
  actions_eq : s.actions = action :: s'.actions
  holders_eq : s'.holders = s.holders
  actionsRun_eq : s'.actionsRun = s.actionsRun + 1
  coherent : s'.Coherent

/-- What a thread has to do: wait, if others hold a pause; pass, if no action waits; or else run the
oldest action. -/
theorem next_cases (s : Safepoints α) (t : ThreadId) :
    s.blocks t = true ∧ s.next t = .wait ∨
      s.blocks t = false ∧ s.actions = [] ∧ s.next t = .pass s.refresh ∨
        ∃ action s', s.blocks t = false ∧ s.Takes action s' ∧ s.next t = .run action s' := by
  rw [next]
  cases hblocks : s.blocks t with
  | true => exact .inl ⟨rfl, rfl⟩
  | false =>
    cases hactions : s.actions with
    | nil => exact .inr (.inl ⟨rfl, rfl, rfl⟩)
    | cons action rest =>
      refine .inr (.inr ⟨action, _, rfl, ?_, rfl⟩)
      exact ⟨hactions, rfl, rfl, rfl⟩

end Safepoints

/-- No question is about safepoints. -/
theorem World.safepoints_answer (w : World) (q : Query) :
    (w.answer q).2.safepoints = w.safepoints := by
  have hwalk (id : ClassId) (name : Symbol) : (w.walk id name).2.safepoints = w.safepoints := by
    rw [walk]
    split <;> rfl
  cases q with
  | findMethod receiver name => exact hwalk _ name
  | keepMethod receiver name => exact hwalk _ name
  | _ => rfl

namespace Machine

/-- What happens to actions. -/
inductive Event where
  | submitted (action : Script)
  | begun (action : Script)
  /-- The action that was begun last has come to its end. -/
  | ended (outcome : Except Fault Dispatched)

/-- What a step does to actions, if anything. -/
def event? (m : Machine) : Option Event :=
  match m.control with
  | .run (.submit action _) _ => some (.submitted action)
  | .poll _ =>
    match m.world.safepoints.next m.thread with
    | .run action _ => some (.begun action)
    | _ => none
  | .result outcome =>
    match m.stack with
    | .safepoint _ :: _ => some (.ended outcome)
    | _ => none
  | _ => none

/-- What the first steps of a run do to actions. -/
def events : Nat → Machine → List Event
  | 0, _ => []
  | steps + 1, m =>
    match m.step with
    | .next m' => m.event?.toList ++ events steps m'
    | _ => []

/-- The actions that are submitted, in order. -/
def submittedIn (log : List Event) : List Script :=
  log.filterMap fun
    | .submitted action => some action
    | _ => none

/-- The actions that are begun, in order. -/
def begunIn (log : List Event) : List Script :=
  log.filterMap fun
    | .begun action => some action
    | _ => none

/-- What actions come to, in order. -/
def endedIn (log : List Event) : List (Except Fault Dispatched) :=
  log.filterMap fun
    | .ended outcome => some outcome
    | _ => none

@[simp] theorem submittedIn_append (log log' : List Event) :
    submittedIn (log ++ log') = submittedIn log ++ submittedIn log' :=
  List.filterMap_append

@[simp] theorem begunIn_append (log log' : List Event) :
    begunIn (log ++ log') = begunIn log ++ begunIn log' :=
  List.filterMap_append

@[simp] theorem endedIn_append (log log' : List Event) :
    endedIn (log ++ log') = endedIn log ++ endedIn log' :=
  List.filterMap_append

/-- The log tells how the first state of the safepoints has become the second one: what was begun has
left the queue at its front, and what was submitted has joined it at its end. -/
structure Tells (log : List Event) (s s' : Safepoints Script) : Prop where
  holders_eq : s'.holders = s.holders
  queue_eq : begunIn log ++ s'.actions = s.actions ++ submittedIn log
  actionsRun_eq : s'.actionsRun = s.actionsRun + (begunIn log).length
  coherent : s'.Coherent
  quiet : ∀ action ∈ s'.actions, action.Quiet

/-- Of the actions that were begun, all but a number have come to their end, without a fault. -/
structure RanWell (log : List Event) (unfinished : Nat) : Prop where
  length_eq : (endedIn log).length + unfinished = (begunIn log).length
  ok : ∀ outcome ∈ endedIn log, outcome.isOk = true

/-- All actions that were begun have come to their end, and only the last with a fault, which is the given
one. -/
structure RanUntil (log : List Event) (f : Fault) : Prop where
  length_eq : (endedIn log).length = (begunIn log).length
  ended_eq : ∃ earlier, endedIn log = earlier ++ [.error f] ∧
    ∀ outcome ∈ earlier, outcome.isOk = true

variable {log : List Event} {s s' start : Safepoints Script} {action : Script} {unfinished : Nat}
  {t : ThreadId} {m m' : Machine}

theorem tells_nil (hs : s.Coherent) (hquiet : ∀ action ∈ s.actions, action.Quiet) : Tells [] s s where
  holders_eq := rfl
  queue_eq := (List.append_nil _).symm
  actionsRun_eq := rfl
  coherent := hs
  quiet := hquiet

theorem Tells.of_sameQueue (hlog : Tells log start s) (hsame : s.SameQueue s') :
    Tells log start s' where
  holders_eq := hsame.holders_eq.trans hlog.holders_eq
  queue_eq := by
    rw [hsame.actions_eq]
    exact hlog.queue_eq
  actionsRun_eq := hsame.actionsRun_eq.trans hlog.actionsRun_eq
  coherent := hsame.coherent hlog.coherent
  quiet := by
    rw [hsame.actions_eq]
    exact hlog.quiet

theorem Tells.begin (hlog : Tells log start s) (htakes : s.Takes action s') :
    Tells (log ++ [.begun action]) start s' where
  holders_eq := htakes.holders_eq.trans hlog.holders_eq
  queue_eq := by
    have hqueue := hlog.queue_eq
    rw [htakes.actions_eq] at hqueue
    simpa [begunIn, submittedIn] using hqueue
  actionsRun_eq := by
    rw [htakes.actionsRun_eq, hlog.actionsRun_eq, begunIn_append, List.length_append]
    rfl
  coherent := htakes.coherent
  quiet a ha := by
    refine hlog.quiet a ?_
    rw [htakes.actions_eq]
    exact List.mem_cons_of_mem action ha

theorem Tells.submit (hlog : Tells log start s) (haction : action.Quiet) :
    Tells (log ++ [.submitted action]) start (s.submit action) where
  holders_eq := hlog.holders_eq
  queue_eq := by
    rw [begunIn_append, submittedIn_append, ← List.append_assoc, ← hlog.queue_eq]
    simp [Safepoints.submit, begunIn, submittedIn]
  actionsRun_eq := by
    rw [begunIn_append]
    simpa [begunIn, Safepoints.submit] using hlog.actionsRun_eq
  coherent := .submit action
  quiet a ha := by
    rcases List.mem_append.mp ha with hold | hnew
    · exact hlog.quiet a hold
    · rwa [List.mem_singleton.mp hnew]

theorem Tells.end (hlog : Tells log start s) (outcome : Except Fault Dispatched) :
    Tells (log ++ [.ended outcome]) start s where
  holders_eq := hlog.holders_eq
  queue_eq := by
    simpa [begunIn, submittedIn] using hlog.queue_eq
  actionsRun_eq := by
    rw [begunIn_append]
    simpa [begunIn] using hlog.actionsRun_eq
  coherent := hlog.coherent
  quiet := hlog.quiet

/-- Whether a thread is kept depends on the pauses alone. -/
theorem Tells.blocks_eq (hlog : Tells log start s) (t : ThreadId) : s.blocks t = start.blocks t := by
  simp only [Safepoints.blocks, Safepoints.isPaused, hlog.holders_eq]

theorem ranWell_nil : RanWell [] 0 := ⟨rfl, nofun⟩

theorem RanWell.begin (hran : RanWell log 0) : RanWell (log ++ [.begun action]) 1 := by
  have hlength := hran.length_eq
  refine ⟨?_, by simpa [endedIn] using hran.ok⟩
  simp only [endedIn, begunIn, List.filterMap_append, List.length_append] at hlength ⊢
  simpa using hlength

theorem RanWell.submit (hran : RanWell log unfinished) :
    RanWell (log ++ [.submitted action]) unfinished := by
  refine ⟨?_, by simpa [endedIn] using hran.ok⟩
  simpa [endedIn, begunIn] using hran.length_eq

theorem RanWell.end_ok {d : Dispatched} (hran : RanWell log 1) :
    RanWell (log ++ [.ended (.ok d)]) 0 := by
  refine ⟨?_, fun outcome houtcome => ?_⟩
  · simpa [endedIn, begunIn] using hran.length_eq
  · rw [endedIn_append] at houtcome
    rcases List.mem_append.mp houtcome with hold | hnew
    · exact hran.ok outcome hold
    · obtain rfl : outcome = .ok d := List.mem_singleton.mp hnew
      rfl

theorem RanWell.end_error {f : Fault} (hran : RanWell log 1) :
    RanUntil (log ++ [.ended (.error f)]) f := by
  refine ⟨?_, endedIn log, endedIn_append log _, hran.ok⟩
  simpa [endedIn, begunIn] using hran.length_eq

/-- Where a poll stands after a given log, by what the machine is about to do. The queue is what waits at
the moment, and `free` says that no pause keeps the thread. -/
inductive Stage (log : List Event) (queue : List Script) (free : Prop) :
    Control → List Waiting → Prop where
  | arriving (hlog : log = []) : Stage log queue free (.arrive none) []
  | polling (hran : RanWell log 0) : Stage log queue free (.poll none) []
  | running {s : Script} (hs : s.Quiet) (hran : RanWell log 1) (hfree : free) :
    Stage log queue free (.run s none) [.safepoint none]
  | ending (outcome : Except Fault Dispatched) (hran : RanWell log 1) (hfree : free) :
    Stage log queue free (.result outcome) [.safepoint none]
  | passed (hran : RanWell log 0) (hfree : free) (hqueue : queue = []) :
    Stage log queue free (.result (.ok (.returned .nil))) []
  | failed {f : Fault} (hran : RanUntil log f) (hfree : free) :
    Stage log queue free (.result (.error f)) []

/-- How far a poll on a thread has come that began with given safepoints. -/
structure Draining (start : Safepoints Script) (t : ThreadId) (log : List Event) (m : Machine) :
    Prop where
  thread_eq : m.thread = t
  tells : Tells log start m.world.safepoints
  stage : Stage log m.world.safepoints.actions (start.blocks t = false) m.control m.stack

/-- A step that concerns neither the queue nor the pauses leads on if it leads to a stage of a poll. -/
theorem Draining.of_sameQueue (hm : Draining start t log m)
    (hsame : m.world.safepoints.SameQueue m'.world.safepoints) (hthread : m'.thread = m.thread)
    (hstage : Stage log m.world.safepoints.actions (start.blocks t = false) m'.control m'.stack) :
    Draining start t log m' := by
  refine ⟨hthread.trans hm.thread_eq, hm.tells.of_sameQueue hsame, ?_⟩
  rw [hsame.actions_eq]
  exact hstage

theorem Draining.step_arrive (hm : Draining start t [] m) (hstack : m.stack = []) :
    Draining start t [] (m.arrive none) := by
  have hsame := m.world.safepoints.sameQueue_arrive
  have hfree := hm.tells.blocks_eq t
  have hcoherent := hm.tells.coherent
  obtain ⟨world, thread, control, stack⟩ := m
  subst hstack
  rw [arrive]
  cases hrequested : world.safepoints.requested with
  | true =>
    simp only [Safepoints.arrive, hrequested, if_true] at hsame ⊢
    exact hm.of_sameQueue hsame rfl (.polling ranWell_nil)
  | false =>
    obtain ⟨hactions, hholders⟩ := hcoherent.eq_nil_of_not_requested hrequested
    simp only [Safepoints.arrive, hrequested, Bool.false_eq_true, if_false] at hsame ⊢
    refine hm.of_sameQueue hsame rfl (.passed ranWell_nil ?_ hactions)
    rw [← hfree, Safepoints.blocks, Safepoints.isPaused, hholders]
    rfl

theorem Draining.step_poll (hm : Draining start t log m) (hcontrol : m.control = .poll none)
    (hstack : m.stack = []) (hran : RanWell log 0) (hstep : m.step = .next m') :
    Draining start t (log ++ m.event?.toList) m' := by
  have hblocks := hm.tells.blocks_eq t
  have hcoherent := hm.tells.coherent
  have hthread := hm.thread_eq
  obtain ⟨world, thread, control, stack⟩ := m
  subst hcontrol hstack hthread
  rcases world.safepoints.next_cases thread with
    ⟨-, hnext⟩ | ⟨hfree, hactions, hnext⟩ | ⟨action, taken, hfree, htakes, hnext⟩
  · simp only [Machine.step, atSafepoint, hnext] at hstep
    cases hstep
  · simp only [Machine.step, atSafepoint, hnext, Progress.next.injEq] at hstep
    subst hstep
    have hsame : world.safepoints.SameQueue world.safepoints.refresh :=
      ⟨hcoherent.symm, rfl, rfl, rfl⟩
    simp only [event?, hnext, Option.toList_none, List.append_nil]
    exact hm.of_sameQueue hsame rfl (.passed hran (hblocks.symm.trans hfree) hactions)
  · simp only [Machine.step, atSafepoint, hnext, Progress.next.injEq] at hstep
    subst hstep
    have hquiet : action.Quiet := by
      refine hm.tells.quiet action ?_
      rw [htakes.actions_eq]
      exact List.mem_cons_self
    simp only [event?, hnext, Option.toList_some]
    exact ⟨rfl, hm.tells.begin htakes, .running hquiet hran.begin (hblocks.symm.trans hfree)⟩

theorem Draining.step_run (hm : Draining start t log m) {s : Script} (hs : s.Quiet)
    (hcontrol : m.control = .run s none) (hstack : m.stack = [.safepoint none])
    (hran : RanWell log 1) (hfree : start.blocks t = false) :
    Draining start t (log ++ m.event?.toList) (m.runScript none s) := by
  obtain ⟨world, thread, control, stack⟩ := m
  subst hcontrol hstack
  cases hs with
  | done outcome =>
    simp only [event?, Option.toList_none, List.append_nil]
    exact hm.of_sameQueue (.refl _) rfl (.ending _ hran hfree)
  | «yield» hk =>
    simp only [event?, Option.toList_none, List.append_nil]
    exact hm.of_sameQueue (.refl _) rfl (.running hk hran hfree)
  | edit hk =>
    simp only [event?, Option.toList_none, List.append_nil]
    exact hm.of_sameQueue (.refl _) rfl (.running (hk _) hran hfree)
  | submit haction hk =>
    exact ⟨hm.thread_eq, hm.tells.submit haction, .running hk hran.submit hfree⟩
  | ask hk =>
    simp only [event?, Option.toList_none, List.append_nil]
    refine hm.of_sameQueue ?_ rfl (.running (hk _) hran hfree)
    simp only [runScript, World.safepoints_answer]
    exact .refl _

/-- Every step of a poll leads on. -/
theorem Draining.step (hm : Draining start t log m) (hstep : m.step = .next m') :
    Draining start t (log ++ m.event?.toList) m' := by
  have hstage := hm.stage
  obtain ⟨world, thread, control, stack⟩ := m
  cases hstage with
  | arriving hlog =>
    subst hlog
    obtain rfl := Progress.next.inj hstep
    exact hm.step_arrive rfl
  | polling hran => exact hm.step_poll rfl rfl hran hstep
  | running hs hran hfree =>
    obtain rfl := Progress.next.inj hstep
    exact hm.step_run hs rfl rfl hran hfree
  | ending outcome hran hfree =>
    obtain rfl := Progress.next.inj hstep
    cases outcome with
    | ok d => exact ⟨hm.thread_eq, hm.tells.end (.ok d), .polling hran.end_ok⟩
    | error f => exact ⟨hm.thread_eq, hm.tells.end (.error f), .failed hran.end_error hfree⟩
  | passed => cases hstep
  | failed => cases hstep

/-- What a poll has done that has come to its end on a thread: no pause kept the thread; a poll that ends
well has run all actions and leaves none, and one that fails has run them up to the first that did. -/
structure Drained (start : Safepoints Script) (t : ThreadId) (log : List Event)
    (outcome : Except Fault Dispatched) (s : Safepoints Script) : Prop where
  tells : Tells log start s
  free : start.blocks t = false
  ok : ∀ d, outcome = .ok d → RanWell log 0 ∧ s.actions = []
  error : ∀ f, outcome = .error f → RanUntil log f

theorem Draining.halted (hm : Draining start t log m) {outcome : Except Fault Dispatched}
    {w : World} (hstep : m.step = .halted outcome w) : Drained start t log outcome w.safepoints := by
  have hstage := hm.stage
  obtain ⟨world, thread, control, stack⟩ := m
  cases hstage with
  | passed hran hfree hqueue =>
    obtain ⟨rfl, rfl⟩ := Progress.halted.inj hstep
    exact ⟨hm.tells, hfree, fun _ _ => ⟨hran, hqueue⟩, nofun⟩
  | failed hran hfree =>
    obtain ⟨rfl, rfl⟩ := Progress.halted.inj hstep
    refine ⟨hm.tells, hfree, nofun, ?_⟩
    rintro f ⟨⟩
    exact hran
  | polling =>
    simp only [Machine.step] at hstep
    split at hstep <;> cases hstep
  | _ => cases hstep

/-- A poll waits only if a pause of others keeps its thread, and then it is between two actions. -/
theorem Draining.blocked (hm : Draining start t log m) (hstep : m.step = .blocked) :
    start.blocks t = true ∧ m.control = .poll none ∧ m.stack = [] := by
  have hblocks := hm.tells.blocks_eq t
  have hstage := hm.stage
  have hthread := hm.thread_eq
  obtain ⟨world, thread, control, stack⟩ := m
  subst hthread
  cases hstage with
  | polling =>
    rcases world.safepoints.next_cases thread with
      ⟨hkept, -⟩ | ⟨-, -, hnext⟩ | ⟨action, taken, -, -, hnext⟩
    · exact ⟨hblocks.symm.trans hkept, rfl, rfl⟩
    · simp only [Machine.step, atSafepoint, hnext] at hstep
      cases hstep
    · simp only [Machine.step, atSafepoint, hnext] at hstep
      cases hstep
  | _ => cases hstep

/-- Where a run of a poll ends: at its end, or where it has to wait. -/
theorem Draining.run (hm : Draining start t log m) (steps : Nat) :
    (∀ outcome w, m.run steps = .halted outcome w →
      Drained start t (log ++ m.events steps) outcome w.safepoints) ∧
    ∀ m', m.run steps = .blocked m' →
      Draining start t (log ++ m.events steps) m' ∧ m'.step = .blocked := by
  induction steps generalizing log m with
  | zero =>
    constructor
    · intro outcome w hrun
      cases hrun
    · intro m' hrun
      cases hrun
  | succ steps ih =>
    rw [Machine.run, events]
    cases hstep : m.step with
    | next m₁ =>
      have hrest := ih (hm.step hstep)
      simp only [List.append_assoc] at hrest
      exact hrest
    | halted outcome w =>
      rw [List.append_nil]
      constructor
      · rintro _ _ ⟨⟩
        exact hm.halted hstep
      · rintro _ ⟨⟩
    | blocked =>
      rw [List.append_nil]
      constructor
      · rintro _ _ ⟨⟩
      · rintro _ ⟨⟩
        exact ⟨hm, hstep⟩

end Machine

end LateBinding
