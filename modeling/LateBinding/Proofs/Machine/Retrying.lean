import LateBinding.Proofs.Machine.Histories
import LateBinding.Proofs.Machine.PollCounts

namespace LateBinding

/-- A script that leaves the runtime alone. All that it can do is to write in the notebook. -/
inductive Script.Detached : Script → Prop where
  | done (outcome : Except Fault Value) : Detached (.done outcome)
  | «yield» {args : List Value} {k : Except Fault Dispatched → Script}
    (hk : Detached (k (.error .noBlockGiven))) : Detached (.yield args k)
  | note {change : Notebook → Notebook} {k : (Query.note change).Answer → Script}
    (hk : ∀ notebook, Detached (k notebook)) : Detached (.ask (.note change) k)

/-- What a script comes to that finds a given notebook, and the notebook that it leaves. -/
inductive Script.Concludes : Script → Notebook → Except Fault Value → Notebook → Prop where
  | done (outcome : Except Fault Value) (n : Notebook) : Concludes (.done outcome) n outcome n
  | «yield» {args : List Value} {k : Except Fault Dispatched → Script} {n n' : Notebook}
    {outcome : Except Fault Value} (hk : Concludes (k (.error .noBlockGiven)) n outcome n') :
    Concludes (.yield args k) n outcome n'
  | note {change : Notebook → Notebook} {k : (Query.note change).Answer → Script} {n n' : Notebook}
    {outcome : Except Fault Value} (hk : Concludes (k (change n)) (change n) outcome n') :
    Concludes (.ask (.note change) k) n outcome n'

/-- What scripts come to that are run one after the other, whether or not they fail, and the notebook that
they leave. -/
inductive Script.ConcludeAll : List Script → Notebook → List (Except Fault Value) → Notebook → Prop where
  | nil (n : Notebook) : ConcludeAll [] n [] n
  | cons {s : Script} {rest : List Script} {n n' n'' : Notebook} {outcome : Except Fault Value}
    {outcomes : List (Except Fault Value)} (hs : s.Concludes n outcome n')
    (hrest : ConcludeAll rest n' outcomes n'') : ConcludeAll (s :: rest) n (outcome :: outcomes) n''

theorem Script.Detached.exists_concludes {s : Script} (hs : s.Detached) (n : Notebook) :
    ∃ outcome n', s.Concludes n outcome n' := by
  induction hs generalizing n with
  | done outcome => exact ⟨outcome, n, .done outcome n⟩
  | «yield» _ ih =>
    obtain ⟨outcome, n', hk⟩ := ih n
    exact ⟨outcome, n', .yield hk⟩
  | @note change k _ ih =>
    obtain ⟨outcome, n', hk⟩ := ih (change n) (change n)
    exact ⟨outcome, n', .note hk⟩

/-- The faults among outcomes, in order. -/
def faultsIn (outcomes : List (Except Fault Value)) : List Fault :=
  outcomes.filterMap fun
    | .error f => some f
    | .ok _ => none

@[simp] theorem faultsIn_ok (v : Value) (outcomes : List (Except Fault Value)) :
    faultsIn (.ok v :: outcomes) = faultsIn outcomes := rfl

@[simp] theorem faultsIn_error (f : Fault) (outcomes : List (Except Fault Value)) :
    faultsIn (.error f :: outcomes) = f :: faultsIn outcomes := rfl

namespace Machine

variable {m m' m'' : Machine} {log log' : List Event} {r : Request} {thread : ThreadId}

/-- A machine comes to another one by its steps and decides no call on the way. The log tells what happens to
actions. -/
inductive Stays : Machine → List Event → Machine → Prop where
  | refl (m : Machine) : Stays m [] m
  | step {m m' m'' : Machine} {log : List Event} (hstep : m.step = .next m')
    (hnone : m.decision? = none) (hrest : Stays m' log m'') : Stays m (m.event?.toList ++ log) m''

theorem Stays.quiet (hstep : m.step = .next m') (hnone : m.decision? = none) (hsilent : m.event? = none)
    (hrest : m'.Stays log m'') : m.Stays log m'' := by
  have hstays := Stays.step hstep hnone hrest
  rwa [hsilent] at hstays

theorem Stays.telling {e : Event} (hstep : m.step = .next m') (hnone : m.decision? = none)
    (hevent : m.event? = some e) (hrest : m'.Stays log m'') : m.Stays (e :: log) m'' := by
  have hstays := Stays.step hstep hnone hrest
  rwa [hevent] at hstays

theorem Stays.trans (hfirst : m.Stays log m') (hthen : m'.Stays log' m'') : m.Stays (log ++ log') m'' := by
  induction hfirst with
  | refl m => exact hthen
  | step hstep hnone _ ih =>
    rw [List.append_assoc]
    exact .step hstep hnone (ih hthen)

theorem Stays.leads (hstays : m.Stays log m') : m.Leads [] m' := by
  induction hstays with
  | refl m => exact .refl m
  | step hstep hnone _ ih => exact .quiet hstep hnone ih

/-- An action that leaves the runtime alone comes to its outcome, whatever waits beneath. -/
theorem stays_of_concludes {s : Script} {n n' : Notebook} {outcome : Except Fault Value}
    (hs : s.Concludes n outcome n') (w : World) (thread : ThreadId) (stack : List Waiting) :
    (⟨{ w with notebook := n }, thread, .run s none, stack⟩ : Machine).Stays []
      ⟨{ w with notebook := n' }, thread, .result (outcome.map .returned), stack⟩ := by
  induction hs with
  | done outcome n => exact .quiet rfl rfl rfl (.refl _)
  | «yield» _ ih => exact .quiet rfl rfl rfl ih
  | note _ ih => exact .quiet rfl rfl rfl ih

/-- The next step of a machine decides a call in a given world. -/
structure Decides (m : Machine) (w : World) (r : Request) : Prop where
  deciding : m.deciding? = some (w, r)
  step : m.step = .next (ofDecision (w.decide r).2 m.thread (w.decide r).1)

theorem Decides.leads {w : World} (hm : m.Decides w r) :
    m.Leads [(w.decide r).1] (ofDecision (w.decide r).2 m.thread (w.decide r).1) :=
  .deciding hm.step (decision?_of_deciding hm.deciding) (.refl _)

end Machine

namespace Safepoints

variable {α : Type} {s : Safepoints α}

/-- The safepoints with these actions in the queue, and no others. -/
def withQueue (s : Safepoints α) (actions : List α) : Safepoints α :=
  { s with requested := !actions.isEmpty, actions }

theorem foldl_submit_cons (s : Safepoints α) (action : α) (rest : List α) :
    (action :: rest).foldl submit s =
      { s with requested := true, actions := s.actions ++ action :: rest } := by
  induction rest generalizing s action with
  | nil => rfl
  | cons next rest ih =>
    rw [List.foldl_cons, ih]
    simp [submit]

theorem next_withQueue_nil (hfree : s.holders = []) (t : ThreadId) :
    (s.withQueue []).next t = .pass (s.withQueue []) := by
  simp [next, blocks, isPaused, refresh, isIdle, withQueue, hfree]

theorem next_withQueue_cons (hfree : s.holders = []) (action : α) (rest : List α) (t : ThreadId) :
    (s.withQueue (action :: rest)).next t =
      .run action ((s.countedMore ⟨0, 0, 1⟩).withQueue rest) := by
  simp [next, blocks, isPaused, refresh, isIdle, withQueue, countedMore, hfree]

end Safepoints

namespace World

open Machine

variable {w u v v₁ : World} {r : Request} {thread : ThreadId} {actions rest : List Script} {n : Notebook}
  {c : Safepoints.Counts} {before log : List Event} {faults : List Fault}

/-- Leaves actions to be run at a safepoint. -/
def submitAll (w : World) (actions : List Script) : World :=
  { w with safepoints := actions.foldl Safepoints.submit w.safepoints }

/-- The world amid the attempts of a call: these actions still wait, this is in the notebook, and so much was
counted in addition to the poll of an attempt without actions. -/
def amid (w : World) (c : Safepoints.Counts) (actions : List Script) (n : Notebook) : World :=
  { w with safepoints := (w.safepoints.passed.countedMore c).withQueue actions, notebook := n }

/-- The attempts of a call, one after the other, from a world on. The first ones are interrupted, each by the
next one of the faults: nothing is decided, and nothing is different behind them but the safepoints and the
notebook. The last one begins in the world `u`, and its call is decided in the world `p`. The log tells what
happens to actions on the way to there. -/
inductive Attempts (thread : ThreadId) (r : Request) :
    World → List Fault → List Event → World → World → Prop where
  | decided {v p : World} {log : List Event} {m : Machine}
    (hstays : (ofRequest v thread r).Stays log m) (hdecides : m.Decides p r) : Attempts thread r v [] log v p
  | interrupted {v v' u p : World} {f : Fault} {faults : List Fault} {log log' : List Event} {m : Machine}
    (hstays : (ofRequest v thread r).Stays log m) (hhalt : m.step = .halted (.error f) v')
    (hkept : v' = { v with safepoints := v'.safepoints, notebook := v'.notebook })
    (hrest : Attempts thread r v' faults log' u p) : Attempts thread r v (f :: faults) (log ++ log') u p

theorem Attempts.exists_decides {p : World} (hattempts : v.Attempts thread r faults log u p) :
    ∃ log' m, (ofRequest u thread r).Stays log' m ∧ m.Decides p r := by
  induction hattempts with
  | decided hstays hdecides => exact ⟨_, _, hstays, hdecides⟩
  | interrupted _ _ _ _ ih => exact ih

/-- An attempt that comes when no action is left is decided at once. -/
theorem decides_arriving (w : World) (thread : ThreadId) (r : Request) (c : Safepoints.Counts)
    (n : Notebook) : (ofRequest (w.amid c [] n) thread r).Decides
      (w.amid { c with polls := c.polls + 1 } [] n) r :=
  ⟨rfl, rfl⟩

/-- An attempt that comes when an action is left comes to the poll. -/
theorem stays_arriving (w : World) (thread : ThreadId) (r : Request) (c : Safepoints.Counts)
    (action : Script) (rest : List Script) (n : Notebook) :
    (ofRequest (w.amid c (action :: rest) n) thread r).Stays []
      ⟨w.amid { c with polls := c.polls + 1, slowPolls := c.slowPolls + 1 } (action :: rest) n, thread,
        .poll (some r), []⟩ :=
  .quiet rfl rfl rfl (.refl _)

/-- What becomes of a call whose present attempt has begun in the world `v`, after some events, while actions
wait: the attempts come to an end when each of the actions was run. -/
structure Recovers (w : World) (thread : ThreadId) (r : Request) (v : World) (before : List Event)
    (actions : List Script) (n : Notebook) (c : Safepoints.Counts) (outcomes : List (Except Fault Value))
    (n' : Notebook) (c' : Safepoints.Counts) (log : List Event) (u : World) : Prop where
  concludes : Script.ConcludeAll actions n outcomes n'
  attempts : v.Attempts thread r (faultsIn outcomes) (before ++ log) u (w.amid c' [] n')
  begun_eq : begunIn log = actions
  ended_eq : endedIn log = outcomes.map (Except.map .returned)
  polls_eq : c'.polls = c.polls + (faultsIn outcomes).length
  actionsRun_eq : c'.actionsRun = c.actionsRun + actions.length

/-- One action more has been run in front of the others. -/
theorem Recovers.cons {v v₁ : World} {before before₁ : List Event} {action : Script}
    {outcome : Except Fault Value} {outcomes : List (Except Fault Value)} {n₁ n' : Notebook}
    {c₁ c' : Safepoints.Counts}
    (hrecovers : w.Recovers thread r v₁ before₁ rest n₁ c₁ outcomes n' c' log u)
    (haction : action.Concludes n outcome n₁)
    (hattempts : v.Attempts thread r (faultsIn (outcome :: outcomes))
      (before ++ .begun action :: .ended (outcome.map .returned) :: log) u (w.amid c' [] n'))
    (hpolls : c₁.polls + (faultsIn outcomes).length = c.polls + (faultsIn (outcome :: outcomes)).length)
    (hrun : c₁.actionsRun = c.actionsRun + 1) :
    w.Recovers thread r v before (action :: rest) n c (outcome :: outcomes) n' c'
      (.begun action :: .ended (outcome.map .returned) :: log) u where
  concludes := .cons haction hrecovers.concludes
  attempts := hattempts
  begun_eq := congrArg (action :: ·) hrecovers.begun_eq
  ended_eq := congrArg (List.cons (outcome.map Dispatched.returned)) hrecovers.ended_eq
  polls_eq := hrecovers.polls_eq.trans hpolls
  actionsRun_eq := by
    rw [hrecovers.actionsRun_eq, hrun, List.length_cons, Nat.add_assoc, Nat.add_comm 1]

section

variable (hidle : w.safepoints.isIdle = true)

include hidle

theorem queue_of_isIdle : w.safepoints.actions = [] ∧ w.safepoints.holders = [] := by
  simpa [Safepoints.isIdle] using hidle

theorem amid_nil (c : Safepoints.Counts) (n : Notebook) :
    w.amid c [] n = countedMore c { w with safepoints := w.safepoints.passed, notebook := n } := by
  have hqueue : (w.safepoints.passed.countedMore c).withQueue [] = w.safepoints.passed.countedMore c := by
    simp [Safepoints.withQueue, Safepoints.countedMore, Safepoints.passed, (queue_of_isIdle hidle).1]
  rw [amid, hqueue]
  rfl

/-- With no action left, the poll passes and the call is decided. -/
theorem decides_of_poll (thread : ThreadId) (r : Request) (c : Safepoints.Counts) (n : Notebook) :
    (⟨w.amid c [] n, thread, .poll (some r), []⟩ : Machine).Decides (w.amid c [] n) r := by
  have hnext : (w.amid c [] n).safepoints.next thread = .pass (w.amid c [] n).safepoints :=
    Safepoints.next_withQueue_nil (s := w.safepoints.passed.countedMore c) (queue_of_isIdle hidle).2 thread
  constructor
  · simp only [deciding?, hnext]
  · simp only [Machine.step, atSafepoint, hnext]
    rfl

/-- A call that is decided behind all actions comes to what it comes to without them. -/
theorem ends_of_decides {m : Machine} (hdecides : m.Decides (w.amid c [] n) r) {ds : List Decision}
    {outcome : Except Fault Dispatched} {w' : World} : m.Ends ds outcome w' ↔
      ∃ w₀, (ofRequest { w with notebook := n } m.thread r).Ends ds outcome w₀ ∧
        w' = w₀.countedMore c := by
  let single : World := { w with safepoints := w.safepoints.passed, notebook := n }
  have hsingle := leads_decide (u := { w with notebook := n }) hidle m.thread r []
  have hleads := hdecides.leads
  rw [amid_nil hidle, decide_countedMore] at hleads
  have hlock := lockstep_countedMore c
  constructor
  · intro hends
    obtain ⟨rest, rfl, hrest⟩ := hleads.ends_iff.mp hends
    obtain ⟨w₀, hends₀, rfl⟩ :=
      hlock.ends_of_ends (m := ofDecision (single.decide r).2 m.thread _) rfl hrest
    exact ⟨w₀, hsingle.ends_iff.mpr ⟨rest, rfl, hends₀⟩, rfl⟩
  · rintro ⟨w₀, hends, rfl⟩
    obtain ⟨rest, rfl, hrest⟩ := hsingle.ends_iff.mp hends
    obtain ⟨_, hends', rfl⟩ := hlock.ends rfl hrest
    exact hleads.ends_iff.mpr ⟨rest, rfl, hends'⟩

/-- With an action left, the poll runs it to its end. -/
theorem stays_of_poll {action : Script} {n' : Notebook} {outcome : Except Fault Value}
    (haction : action.Concludes n outcome n') (thread : ThreadId) (r : Request) (c : Safepoints.Counts)
    (rest : List Script) :
    (⟨w.amid c (action :: rest) n, thread, .poll (some r), []⟩ : Machine).Stays [.begun action]
      ⟨w.amid { c with actionsRun := c.actionsRun + 1 } rest n', thread,
        .result (outcome.map .returned), [.safepoint (some r)]⟩ := by
  let begun : World := w.amid { c with actionsRun := c.actionsRun + 1 } rest n
  have hnext : (w.amid c (action :: rest) n).safepoints.next thread = .run action begun.safepoints :=
    Safepoints.next_withQueue_cons (s := w.safepoints.passed.countedMore c) (queue_of_isIdle hidle).2
      action rest thread
  refine .telling ?_ ?_ ?_ (stays_of_concludes haction begun thread _)
  · simp only [Machine.step, atSafepoint, hnext]
    rfl
  · exact decision?_eq_none (by simp only [deciding?, hnext]) rfl
  · simp only [event?, hnext]

/-- An attempt that has come to a poll. The induction is on the actions that wait there, and it carries along
the world in which the present attempt has begun. -/
theorem recovers_of_poll (hactions : ∀ a ∈ actions, a.Detached)
    (hkept : v = { w with safepoints := v.safepoints, notebook := v.notebook })
    (hstays : (ofRequest v thread r).Stays before ⟨w.amid c actions n, thread, .poll (some r), []⟩) :
    ∃ outcomes n' c' log u, w.Recovers thread r v before actions n c outcomes n' c' log u := by
  induction actions generalizing v before n c with
  | nil =>
    refine ⟨[], n, c, [], v, .nil n, ?_, rfl, rfl, rfl, rfl⟩
    rw [List.append_nil]
    exact .decided hstays (decides_of_poll hidle thread r c n)
  | cons action rest ih =>
    have hrest : ∀ a ∈ rest, a.Detached := fun a ha => hactions a (List.mem_cons_of_mem action ha)
    obtain ⟨outcome, n₁, haction⟩ := (hactions action List.mem_cons_self).exists_concludes n
    have hruns := hstays.trans (stays_of_poll hidle haction thread r c rest)
    let c₁ : Safepoints.Counts := { c with actionsRun := c.actionsRun + 1 }
    cases outcome with
    | ok value =>
      -- The attempt goes on at the poll.
      have hgoesOn : (ofRequest v thread r).Stays _ ⟨w.amid c₁ rest n₁, thread, .poll (some r), []⟩ :=
        hruns.trans (.telling rfl rfl rfl (.refl _))
      obtain ⟨outcomes, n', c', log, u, hrecovers⟩ := ih hrest hkept hgoesOn
      exact ⟨.ok value :: outcomes, n', c', .begun action :: .ended (.ok (.returned value)) :: log, u,
        hrecovers.cons haction (by simpa using hrecovers.attempts) rfl rfl⟩
    | error f =>
      -- The attempt is over, and the next one has to do with the rest of the actions.
      let v₁ : World := w.amid c₁ rest n₁
      have hfails : (ofRequest v thread r).Stays _ ⟨v₁, thread, .result (.error f), []⟩ :=
        hruns.trans (.telling rfl rfl rfl (.refl _))
      have hsame : v₁ = { v with safepoints := v₁.safepoints, notebook := v₁.notebook } := by
        rw [hkept]
        rfl
      obtain ⟨outcomes, n', c', log, u, hrecovers⟩ : ∃ outcomes n' c' log u,
          w.Recovers thread r v₁ [] rest n₁ { c₁ with polls := c₁.polls + 1 } outcomes n' c' log u := by
        cases rest with
        | nil =>
          exact ⟨[], n₁, _, [], v₁, .nil n₁, .decided (.refl _) (decides_arriving w thread r c₁ n₁),
            rfl, rfl, rfl, rfl⟩
        | cons next rest =>
          obtain ⟨outcomes, n', c', log, u, hrecovers⟩ :=
            ih hrest rfl (stays_arriving w thread r c₁ next rest n₁)
          exact ⟨outcomes, n', c', log, u, { hrecovers with }⟩
      have hattempts := Attempts.interrupted hfails rfl hsame hrecovers.attempts
      exact ⟨.error f :: outcomes, n', c', .begun action :: .ended (.error f) :: log, u,
        hrecovers.cons haction (by simpa using hattempts) (Nat.add_right_comm ..) rfl⟩

/-- With nothing to do at the safepoint, a call is decided in the world behind one poll. -/
theorem attempts_of_idle (thread : ThreadId) (r : Request) :
    w.Attempts thread r [] [] w (w.amid ⟨0, 0, 0⟩ [] w.notebook) := by
  rw [amid_nil hidle]
  rcases step_of_idle hidle thread r [] with
    ⟨hstep, hdeciding⟩ | ⟨polling, hsees, hnone, -, hstep, hdeciding⟩
  · exact .decided (.refl _) ⟨hdeciding, hstep⟩
  · obtain rfl : polling.thread = thread := thread_of_step hsees
    exact .decided (.quiet hsees (decision?_eq_none hnone rfl) rfl (.refl _)) ⟨hdeciding, hstep⟩

theorem recovers_of_idle (hactions : ∀ a ∈ actions, a.Detached) (thread : ThreadId) (r : Request) :
    ∃ outcomes n' c' log u,
      w.Recovers thread r (w.submitAll actions) [] actions w.notebook ⟨0, 0, 0⟩ outcomes n' c' log u := by
  cases actions with
  | nil => exact ⟨[], _, _, [], w, .nil _, attempts_of_idle hidle thread r, rfl, rfl, rfl, rfl⟩
  | cons action rest =>
    -- The flag may have been up for nothing, in which case this poll would have been a slow one anyway.
    let slow : Nat := if w.safepoints.requested then 0 else 1
    have harrive : (w.submitAll (action :: rest)).safepoints.arrive =
        (true, (w.amid ⟨0, slow, 0⟩ (action :: rest) w.notebook).safepoints) := by
      rw [submitAll, Safepoints.foldl_submit_cons, (queue_of_isIdle hidle).1]
      cases hrequested : w.safepoints.requested <;>
        simp [Safepoints.arrive, amid, Safepoints.withQueue, Safepoints.countedMore, Safepoints.passed,
          slow, hrequested]
    have hstays : (ofRequest (w.submitAll (action :: rest)) thread r).Stays []
        ⟨w.amid ⟨0, slow, 0⟩ (action :: rest) w.notebook, thread, .poll (some r), []⟩ := by
      refine .quiet ?_ ?_ rfl (.refl _)
      · simp only [Machine.step, ofRequest, arrive, harrive]
        rfl
      · exact decision?_eq_none (by simp only [ofRequest, deciding?, harrive]) rfl
    obtain ⟨outcomes, n', c', log, u, hrecovers⟩ := recovers_of_poll hidle hactions rfl hstays
    exact ⟨outcomes, n', c', log, u, { hrecovers with }⟩

end

/-- In every world where no action waits and no pause is held, for every queue of actions that leave the
runtime alone, and for every call by any route: attempts of the call are interrupted by the faults of the
actions that fail, one by one and in the order of the queue, and nothing is different behind such an attempt
but the safepoints and the notebook. The attempt behind them is decided where nothing else is different
either. By then each action was begun exactly once, in order, came to what it comes to when the actions are
run on their own, and none is left. This last attempt comes to exactly what a single attempt comes to that
finds no action, and leaves the same world, but for what was counted at the safepoints; and so it goes on for
ever if that one does. So the queue behind the last attempt is that of the single attempt: it holds nothing of
the actions given, and what methods of the call itself have submitted meanwhile, if anything. -/
theorem interrupted_call_retried (hidle : w.safepoints.isIdle = true)
    (hactions : ∀ a ∈ actions, a.Detached) (thread : ThreadId) (r : Request) :
    ∃ outcomes notebook log u p counts, Script.ConcludeAll actions w.notebook outcomes notebook ∧
      (w.submitAll actions).Attempts thread r (faultsIn outcomes) log u p ∧
      begunIn log = actions ∧ endedIn log = outcomes.map (Except.map .returned) ∧
      p = { w with safepoints := p.safepoints, notebook } ∧ p.safepoints.isIdle = true ∧
      counts.polls = (faultsIn outcomes).length ∧ counts.actionsRun = actions.length ∧
      ∀ ds outcome w', (ofRequest u thread r).Ends ds outcome w' ↔
        ∃ w₀, (ofRequest { w with notebook } thread r).Ends ds outcome w₀ ∧
          w' = w₀.countedMore counts := by
  obtain ⟨outcomes, notebook, counts, log, u, hrecovers⟩ := recovers_of_idle hidle hactions thread r
  refine ⟨outcomes, notebook, log, u, w.amid counts [] notebook, counts, hrecovers.concludes,
    hrecovers.attempts, hrecovers.begun_eq, hrecovers.ended_eq, rfl, ?_, ?_, ?_, fun ds outcome w' => ?_⟩
  · rw [amid_nil hidle]
    exact hidle
  · rw [hrecovers.polls_eq, Nat.zero_add]
  · rw [hrecovers.actionsRun_eq, Nat.zero_add]
  · obtain ⟨log', m, hstays, hdecides⟩ := hrecovers.attempts.exists_decides
    have hthread : m.thread = thread := thread_of_leads hstays.leads
    rw [hstays.leads.ends_iff]
    simp only [List.nil_append, exists_eq_left']
    rw [ends_of_decides hidle hdecides, hthread]

/-- Two of three actions fail on the way of a call through a site. -/
theorem interrupted_call_retried_twice :
    let w := (start {}).after
      [.edit (.define ⟨1⟩ ⟨"foo"⟩ .pub (.constant (.bool true)) {}), .newSite .publicCall 8]
    let r : Request := ⟨.site 0, .object ⟨0, ⟨1⟩⟩, ⟨"foo"⟩, [], none⟩
    let actions : List Script :=
      [.fail (.interrupted "first"), .answer .nil, .fail (.interrupted "second")]
    ∃ log u p ds u', (w.submitAll actions).Attempts ⟨0⟩ r [.interrupted "first", .interrupted "second"]
        log u p ∧ begunIn log = actions ∧
      (ofRequest u ⟨0⟩ r).Ends ds (.ok (.returned (.bool true))) u' := by
  intro w r actions
  have hidle : w.safepoints.isIdle = true := by decide +kernel
  have hactions : ∀ a ∈ actions, a.Detached := by
    simp only [actions, List.forall_mem_cons]
    exact ⟨.done _, .done _, .done _, by simp⟩
  have hrun : ((ofRequest w ⟨0⟩ r).run 4).outcome? = some (.ok (.returned (.bool true))) := by
    decide +kernel
  clear_value w
  obtain ⟨u₀, hrun⟩ := End.exists_halted hrun
  obtain ⟨ds, hsingle⟩ := exists_ends_iff.mpr ⟨4, hrun⟩
  obtain ⟨outcomes, notebook, log, u, p, counts, hconcludes, hattempts, hbegun, -, -, -, -, -, hends⟩ :=
    interrupted_call_retried hidle hactions ⟨0⟩ r
  unfold actions at hconcludes
  obtain _ | ⟨⟨⟩, _ | ⟨⟨⟩, _ | ⟨⟨⟩, ⟨⟩⟩⟩⟩ := hconcludes
  exact ⟨log, u, p, ds, _, hattempts, hbegun, (hends _ _ _).mpr ⟨u₀, hsingle, rfl⟩⟩

end World

end LateBinding
