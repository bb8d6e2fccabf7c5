import LateBinding.Proofs.Machine.Runs

namespace LateBinding

/-- The safepoints behind a poll that has found nothing to do. -/
def Safepoints.passed {α : Type} (s : Safepoints α) : Safepoints α :=
  { s with
    requested := false
    polls := s.polls + 1
    slowPolls := if s.requested then s.slowPolls + 1 else s.slowPolls }

namespace Machine

/-- A machine comes to another one by its steps, and decides these calls on the way. -/
inductive Leads : Machine → List Decision → Machine → Prop where
  | refl (m : Machine) : Leads m [] m
  | step {m m' m'' : Machine} {ds : List Decision} (hstep : m.step = .next m')
    (hrest : Leads m' ds m'') : Leads m (m.decision?.toList ++ ds) m''

/-- A machine comes to an outcome, and decides these calls on the way. -/
def Ends (m : Machine) (ds : List Decision) (outcome : Except Fault Dispatched) (w : World) : Prop :=
  ∃ m', m.Leads ds m' ∧ m'.step = .halted outcome w

/-- The machine with more beneath its stack. -/
def above (m : Machine) (frames : List Waiting) : Machine := { m with stack := m.stack ++ frames }

/-- What a step comes to with more beneath the stack, which takes over when nothing else waits. -/
def Progress.above (thread : ThreadId) (frames : List Waiting) : Progress → Progress
  | next m => .next (m.above frames)
  | halted outcome w => Machine.step ⟨w, thread, .result outcome, frames⟩
  | blocked => .blocked

variable {m m' m'' : Machine} {ds ds' : List Decision} {outcome : Except Fault Dispatched} {w : World}
  {frames : List Waiting}

theorem Leads.trans (hfirst : m.Leads ds m') (hthen : m'.Leads ds' m'') : m.Leads (ds ++ ds') m'' := by
  induction hfirst with
  | refl m => exact hthen
  | step hstep _ ih =>
    rw [List.append_assoc]
    exact .step hstep (ih hthen)

/-- A step that decides nothing. -/
theorem Leads.quiet (hstep : m.step = .next m') (hnone : m.decision? = none)
    (hrest : m'.Leads ds m'') : m.Leads ds m'' := by
  have hleads := Leads.step hstep hrest
  rwa [hnone] at hleads

/-- A step that decides a call. -/
theorem Leads.deciding {d : Decision} (hstep : m.step = .next m') (hdecision : m.decision? = some d)
    (hrest : m'.Leads ds m'') : m.Leads (d :: ds) m'' := by
  have hleads := Leads.step hstep hrest
  rwa [hdecision] at hleads

theorem Leads.ends_iff (hleads : m.Leads ds m') {ds' : List Decision} :
    m.Ends ds' outcome w ↔ ∃ rest, ds' = ds ++ rest ∧ m'.Ends rest outcome w := by
  constructor
  · intro hends
    induction hleads generalizing ds' with
    | refl m => exact ⟨ds', rfl, hends⟩
    | step hstep _ ih =>
      obtain ⟨last, hlast, hhalt⟩ := hends
      cases hlast with
      | refl =>
        rw [hstep] at hhalt
        cases hhalt
      | step hstep' hrest =>
        obtain rfl := Progress.next.inj (hstep'.symm.trans hstep)
        obtain ⟨rest, rfl, hends⟩ := ih ⟨last, hrest, hhalt⟩
        exact ⟨rest, by rw [List.append_assoc], hends⟩
  · rintro ⟨rest, rfl, last, hlast, hhalt⟩
    exact ⟨last, hleads.trans hlast, hhalt⟩

theorem ends_of_halted (hhalt : m.step = .halted outcome w) {ds : List Decision}
    {outcome' : Except Fault Dispatched} {w' : World} :
    m.Ends ds outcome' w' ↔ ds = [] ∧ outcome' = outcome ∧ w' = w := by
  constructor
  · rintro ⟨last, hlast, hhalt'⟩
    cases hlast with
    | refl =>
      obtain ⟨rfl, rfl⟩ := Progress.halted.inj (hhalt'.symm.trans hhalt)
      exact ⟨rfl, rfl, rfl⟩
    | step hstep _ =>
      rw [hstep] at hhalt
      cases hhalt
  · rintro ⟨rfl, rfl, rfl⟩
    exact ⟨m, .refl m, hhalt⟩

/-- A machine comes to one outcome at most, and decides the same calls on the way. -/
theorem Ends.unique {ds' : List Decision} {outcome' : Except Fault Dispatched} {w' : World}
    (hends : m.Ends ds outcome w) (hends' : m.Ends ds' outcome' w') :
    ds' = ds ∧ outcome' = outcome ∧ w' = w := by
  obtain ⟨last, hleads, hhalt⟩ := hends
  obtain ⟨rest, rfl, hrest⟩ := hleads.ends_iff.mp hends'
  obtain ⟨rfl, rfl, rfl⟩ := (ends_of_halted hhalt).mp hrest
  exact ⟨List.append_nil ds, rfl, rfl⟩

/-- A run comes to an end within some number of steps exactly if a course leads there. -/
theorem exists_ends_iff :
    (∃ ds, m.Ends ds outcome w) ↔ ∃ steps, m.run steps = .halted outcome w := by
  constructor
  · rintro ⟨ds, last, hlast, hhalt⟩
    induction hlast with
    | refl m => exact ⟨1, by simp only [run, hhalt]⟩
    | step hstep _ ih =>
      obtain ⟨steps, hrun⟩ := ih hhalt
      exact ⟨steps + 1, by simp only [run, hstep, hrun]⟩
  · rintro ⟨steps, hrun⟩
    induction steps generalizing m with
    | zero => cases hrun
    | succ steps ih =>
      rw [run] at hrun
      cases hstep : m.step with
      | next m' =>
        rw [hstep] at hrun
        obtain ⟨ds, last, hlast, hhalt⟩ := ih hrun
        exact ⟨_, last, .step hstep hlast, hhalt⟩
      | halted outcome' w' =>
        rw [hstep] at hrun
        obtain ⟨rfl, rfl⟩ := End.halted.inj hrun
        exact ⟨[], m, .refl m, hstep⟩
      | blocked =>
        rw [hstep] at hrun
        cases hrun

/-- With nothing to do at the safepoint, a call is decided in one step, or in two because it sees first that
there is nothing to do. -/
theorem step_of_idle {u : World} (hidle : u.safepoints.isIdle = true) (thread : ThreadId) (r : Request)
    (stack : List Waiting) :
    let passed : World := { u with safepoints := u.safepoints.passed }
    let arriving : Machine := ⟨u, thread, .arrive (some r), stack⟩
    let decided : Machine := ⟨(passed.decide r).2, thread, .ofDecision (passed.decide r).1, stack⟩
    arriving.step = .next decided ∧ arriving.deciding? = some (passed, r) ∨
      ∃ polling, arriving.step = .next polling ∧ arriving.deciding? = none ∧
        polling.control = .poll (some r) ∧ polling.step = .next decided ∧
        polling.deciding? = some (passed, r) := by
  intro passed arriving decided
  cases hrequested : u.safepoints.requested with
  | false =>
    have harrive : u.safepoints.arrive = (false, u.safepoints.passed) := by
      simp [Safepoints.arrive, Safepoints.passed, hrequested]
    refine .inl ⟨?_, ?_⟩
    · simp only [arriving, step, arrive, harrive]
      rfl
    · simp only [arriving, deciding?, harrive]
      rfl
  | true =>
    obtain ⟨hactions, hholders⟩ : u.safepoints.actions = [] ∧ u.safepoints.holders = [] := by
      simpa [Safepoints.isIdle] using hidle
    let seen : Safepoints Script :=
      { u.safepoints with
        polls := u.safepoints.polls + 1
        slowPolls := u.safepoints.slowPolls + 1 }
    have harrive : u.safepoints.arrive = (true, seen) := by simp [Safepoints.arrive, hrequested, seen]
    have hnext : seen.next thread = .pass u.safepoints.passed := by
      simp [seen, Safepoints.next, Safepoints.blocks, Safepoints.isPaused, Safepoints.refresh,
        Safepoints.isIdle, Safepoints.passed, hactions, hholders, hrequested]
    refine .inr ⟨⟨{ u with safepoints := seen }, thread, .poll (some r), stack⟩, ?_, ?_, rfl, ?_, ?_⟩
    · simp only [arriving, step, arrive, harrive]
    · simp only [arriving, deciding?, harrive]
    · simp only [step, atSafepoint, hnext]
      rfl
    · simp only [deciding?, hnext]
      rfl

theorem leads_decide {u : World} (hidle : u.safepoints.isIdle = true) (thread : ThreadId) (r : Request)
    (stack : List Waiting) :
    let d := ({ u with safepoints := u.safepoints.passed }.decide r).1
    (⟨u, thread, .arrive (some r), stack⟩ : Machine).Leads [d]
      ⟨({ u with safepoints := u.safepoints.passed }.decide r).2, thread, .ofDecision d, stack⟩ := by
  rcases step_of_idle hidle thread r stack with
    ⟨hstep, hdeciding⟩ | ⟨polling, hsees, hnone, -, hstep, hdeciding⟩
  · exact .deciding hstep (decision?_of_deciding hdeciding) (.refl _)
  · refine .quiet hsees (decision?_eq_none hnone rfl) ?_
    exact .deciding hstep (decision?_of_deciding hdeciding) (.refl _)

/-- A call that is answered or refused by a decision comes to an end with it. -/
theorem ends_of_decide {u : World} {r : Request} {o : Except Fault Dispatched}
    (hidle : u.safepoints.isIdle = true) (thread : ThreadId)
    (hdecide : ({ u with safepoints := u.safepoints.passed }.decide r).1 = .ofOutcome o) :
    (ofRequest u thread r).Ends [.ofOutcome o] o
      ({ u with safepoints := u.safepoints.passed }.decide r).2 := by
  have hleads := leads_decide hidle thread r []
  rw [hdecide] at hleads
  refine ⟨_, hleads, ?_⟩
  cases o <;> rfl

theorem thread_of_step (hstep : m.step = .next m') : m'.thread = m.thread := by
  obtain ⟨world, thread, control, stack⟩ := m
  have henter (w : World) (r : Option Request) :
      (enter ⟨world, thread, control, stack⟩ w r).thread = thread := by
    cases r <;> rfl
  cases control with
  | run s block =>
    obtain rfl := Progress.next.inj hstep
    cases s with
    | «yield» args k => cases block <;> rfl
    | _ => rfl
  | arrive r =>
    obtain rfl := Progress.next.inj hstep
    simp only [arrive]
    split
    · rfl
    · exact henter _ r
  | poll r =>
    simp only [step, atSafepoint] at hstep
    split at hstep
    · rename_i hnext
      obtain rfl := Progress.next.inj hstep
      split at hnext
      · cases hnext
      · obtain rfl := Option.some.inj hnext
        rfl
      · obtain rfl := Option.some.inj hnext
        exact henter _ r
    · cases hstep
  | result outcome =>
    simp only [step] at hstep
    split at hstep
    · cases hstep
    · rename_i top rest
      obtain rfl := Progress.next.inj hstep
      cases top with
      | script k block => rfl
      | safepoint r => cases outcome <;> rfl

/-- A step looks at what waits beneath only when nothing else waits. -/
theorem step_above (m : Machine) (frames : List Waiting) :
    (m.above frames).step = m.step.above m.thread frames := by
  obtain ⟨world, thread, control, stack⟩ := m
  have henter (w : World) (r : Option Request) :
      enter ⟨world, thread, control, stack ++ frames⟩ w r =
        (enter ⟨world, thread, control, stack⟩ w r).above frames := by
    cases r <;> rfl
  cases control with
  | run s block =>
    cases s with
    | «yield» args k => cases block <;> rfl
    | _ => rfl
  | arrive r =>
    simp only [above, step, arrive]
    split
    · rfl
    · rw [henter]
      rfl
  | poll r =>
    simp only [above, step, atSafepoint]
    cases world.safepoints.next thread with
    | wait => rfl
    | run action safepoints => rfl
    | pass safepoints =>
      simp only [henter]
      rfl
  | result outcome =>
    cases stack with
    | nil => rfl
    | cons top rest =>
      cases top with
      | script k block => rfl
      | safepoint r => cases outcome <;> rfl

/-- A machine that halts has an outcome, and nothing waits for it but what is put beneath. -/
theorem above_of_halted (hhalt : m.step = .halted outcome w) (frames : List Waiting) :
    m.above frames = ⟨w, m.thread, .result outcome, frames⟩ := by
  obtain ⟨world, thread, control, stack⟩ := m
  cases control with
  | run s block => cases hhalt
  | arrive r => cases hhalt
  | poll r =>
    simp only [step] at hhalt
    split at hhalt <;> cases hhalt
  | result outcome' =>
    cases stack with
    | nil =>
      obtain ⟨rfl, rfl⟩ := Progress.halted.inj hhalt
      rfl
    | cons top rest => cases hhalt

theorem Leads.above (hleads : m.Leads ds m') (frames : List Waiting) :
    (m.above frames).Leads ds (m'.above frames) := by
  induction hleads with
  | refl m => exact .refl _
  | @step m m' _ _ hstep _ ih =>
    have hstep' : (m.above frames).step = .next (m'.above frames) := by
      rw [step_above, hstep]
      rfl
    exact .step hstep' ih

theorem thread_of_leads (hleads : m.Leads ds m') : m'.thread = m.thread := by
  induction hleads with
  | refl m => rfl
  | step hstep _ ih => exact ih.trans (thread_of_step hstep)

/-- What waits beneath takes over when the rest has come to an outcome, and not before. -/
theorem ends_above_iff : (m.above frames).Ends ds outcome w ↔
    ∃ ds₁ o₁ w₁ ds₂, m.Ends ds₁ o₁ w₁ ∧ ds = ds₁ ++ ds₂ ∧
      (⟨w₁, m.thread, .result o₁, frames⟩ : Machine).Ends ds₂ outcome w := by
  constructor
  · rintro ⟨last, hlast, hhalt⟩
    generalize hbelow : m.above frames = n at hlast
    -- A step of the whole is one of the machine above, until that has halted.
    induction hlast generalizing m with
    | refl n =>
      subst hbelow
      cases hstep : m.step with
      | next m' =>
        rw [step_above, hstep] at hhalt
        cases hhalt
      | halted o₁ w₁ =>
        refine ⟨[], o₁, w₁, [], ⟨m, .refl m, hstep⟩, rfl, ?_⟩
        rw [← above_of_halted hstep]
        exact ⟨_, .refl _, hhalt⟩
      | blocked =>
        rw [step_above, hstep] at hhalt
        cases hhalt
    | @step n n' last rest hstep' hrest ih =>
      subst hbelow
      cases hstep : m.step with
      | next m' =>
        rw [step_above, hstep] at hstep'
        obtain ⟨ds₁, o₁, w₁, ds₂, hends, rfl, hthen⟩ := ih hhalt (Progress.next.inj hstep')
        rw [thread_of_step hstep] at hthen
        refine ⟨m.decision?.toList ++ ds₁, o₁, w₁, ds₂, ?_, by rw [List.append_assoc]; rfl, hthen⟩
        obtain ⟨last, hlast, hhalt⟩ := hends
        exact ⟨last, .step hstep hlast, hhalt⟩
      | halted o₁ w₁ =>
        refine ⟨[], o₁, w₁, _, ⟨m, .refl m, hstep⟩, rfl, ?_⟩
        rw [← above_of_halted hstep]
        exact ⟨last, .step hstep' hrest, hhalt⟩
      | blocked =>
        rw [step_above, hstep] at hstep'
        cases hstep'
  · rintro ⟨ds₁, o₁, w₁, ds₂, ⟨last, hlast, hhalt⟩, rfl, hends⟩
    refine (hlast.above frames).ends_iff.mpr ⟨ds₂, rfl, ?_⟩
    rwa [above_of_halted hhalt, thread_of_leads hlast]

/-- Where a script waits that ends at once, the whole comes to what the script makes of the outcome. -/
theorem ends_above_done_iff {k : Except Fault Dispatched → Script} {block : Option Block}
    {f : Except Fault Dispatched → Except Fault Value} (hk : ∀ o, k o = .done (f o)) :
    (m.above [.script k block]).Ends ds outcome w ↔
      ∃ o, m.Ends ds o w ∧ outcome = (f o).map .returned := by
  have hresume (w : World) (o : Except Fault Dispatched) :
      (⟨w, m.thread, .result o, [.script k block]⟩ : Machine).Leads []
        ⟨w, m.thread, .result ((f o).map .returned), []⟩ := by
    refine .quiet rfl rfl ?_
    simp only [resume, hk]
    exact .quiet rfl rfl (.refl _)
  have hdone (w' : World) (o : Except Fault Dispatched) (ds : List Decision) :
      (⟨w', m.thread, .result o, [.script k block]⟩ : Machine).Ends ds outcome w ↔
        ds = [] ∧ outcome = (f o).map .returned ∧ w = w' := by
    rw [(hresume w' o).ends_iff]
    simp only [List.nil_append, exists_eq_left']
    exact ends_of_halted rfl
  simp only [ends_above_iff, hdone]
  constructor
  · rintro ⟨ds₁, o₁, w₁, ds₂, hends, rfl, rfl, rfl, rfl⟩
    exact ⟨o₁, by rwa [List.append_nil], rfl⟩
  · rintro ⟨o, hends, rfl⟩
    exact ⟨ds, o, w, [], hends, (List.append_nil ds).symm, rfl, rfl, rfl⟩

/-- The course of a machine is that of another one behind some decisions, and what the machine comes to is
made of what the other one comes to. -/
def Relays (m : Machine) (ds : List Decision)
    (f : Except Fault Dispatched → Except Fault Dispatched) (m' : Machine) : Prop :=
  ∀ all outcome w, m.Ends all outcome w ↔ ∃ rest o, all = ds ++ rest ∧ m'.Ends rest o w ∧ outcome = f o

theorem Leads.relays (hleads : m.Leads ds m') : m.Relays ds id m' := by
  intro all outcome w
  rw [hleads.ends_iff]
  constructor
  · rintro ⟨rest, rfl, hends⟩
    exact ⟨rest, outcome, rfl, hends, rfl⟩
  · rintro ⟨rest, o, rfl, hends, rfl⟩
    exact ⟨rest, rfl, hends⟩

section Relays

variable {f g : Except Fault Dispatched → Except Fault Dispatched} (hrelays : m.Relays ds f m')

include hrelays

theorem Relays.trans (hthen : m'.Relays ds' g m'') : m.Relays (ds ++ ds') (f ∘ g) m'' := by
  intro all outcome w
  rw [hrelays]
  constructor
  · rintro ⟨rest, o, rfl, hends, rfl⟩
    obtain ⟨rest, o, rfl, hends', rfl⟩ := (hthen rest o w).mp hends
    exact ⟨rest, o, (List.append_assoc ds ds' rest).symm, hends', rfl⟩
  · rintro ⟨rest, o, rfl, hends, rfl⟩
    exact ⟨ds' ++ rest, g o, List.append_assoc ds ds' rest, (hthen _ _ w).mpr ⟨rest, o, rfl, hends, rfl⟩,
      rfl⟩

theorem Relays.congr (hsame : ∀ {ds outcome w}, m'.Ends ds outcome w → f outcome = g outcome) :
    m.Relays ds g m' := by
  intro all outcome w
  rw [hrelays]
  constructor
  · rintro ⟨rest, o, rfl, hends, rfl⟩
    exact ⟨rest, o, rfl, hends, hsame hends⟩
  · rintro ⟨rest, o, rfl, hends, rfl⟩
    exact ⟨rest, o, rfl, hends, (hsame hends).symm⟩

theorem Relays.ends {rest : List Decision} (hends : m'.Ends rest outcome w) :
    m.Ends (ds ++ rest) (f outcome) w :=
  (hrelays _ _ w).mpr ⟨rest, outcome, rfl, hends, rfl⟩

end Relays

/-- A script that makes a value of what a call comes to comes to this value, or to the fault of the call. -/
theorem relays_send (u : World) (thread : ThreadId) (v : Value) (name : Symbol) (args : List Value)
    (b : Passing (List Value → Script)) (ignoreVisibility : Bool) (f : Value → Value)
    (block : Option Block) :
    let mode : Mode := if ignoreVisibility then .privateCall else .publicCall
    (ofScript u thread (.send v name args b ignoreVisibility fun v => .answer (f v)) block).Relays []
      (Except.map fun d => .returned (f d.toValue))
      (ofRequest u thread ⟨.uncached mode, v, name, args, b.block? block⟩) := by
  intro mode all outcome w
  let caller : Machine := ofRequest u thread ⟨.uncached mode, v, name, args, b.block? block⟩
  have hcalls : (ofScript u thread
      (.send v name args b ignoreVisibility fun v => .answer (f v)) block).Leads []
      (caller.above [.script (Script.orFail fun d => .answer (f d.toValue)) block]) :=
    .quiet rfl rfl (.refl _)
  have hmap (o : Except Fault Dispatched) :
      (o.map fun d => f d.toValue).map Dispatched.returned = o.map fun d => .returned (f d.toValue) := by
    cases o <;> rfl
  rw [hcalls.ends_iff]
  simp only [List.nil_append, exists_eq_left']
  rw [ends_above_done_iff (f := fun o => o.map fun d => f d.toValue) (fun o => by cases o <;> rfl)]
  simp only [hmap, caller]
  constructor
  · rintro ⟨o, hends, rfl⟩
    exact ⟨all, o, rfl, hends, rfl⟩
  · rintro ⟨rest, o, rfl, hends, rfl⟩
    exact ⟨o, hends, rfl⟩

/-- An outcome of a script: a value, or a fault. -/
def Returns (outcome : Except Fault Dispatched) : Prop := ∀ d, outcome = .ok d → ∃ v, d = .returned v

theorem returns_map (outcome : Except Fault Value) : Returns (outcome.map .returned) := by
  intro d hd
  cases outcome with
  | ok v => exact ⟨v, (Except.ok.inj hd).symm⟩
  | error f => cases hd

theorem Returns.map_toValue {outcome : Except Fault Dispatched} (houtcome : Returns outcome) :
    (outcome.map fun d => .returned d.toValue) = outcome := by
  cases outcome with
  | ok d =>
    obtain ⟨v, rfl⟩ := houtcome d rfl
    rfl
  | error f => rfl

/-- A script is carried out: it goes on, has come to an outcome, or waits beneath everything else. -/
inductive Scripted : Machine → Prop where
  | run (w : World) (t : ThreadId) (s : Script) (block : Option Block) :
    Scripted ⟨w, t, .run s block, []⟩
  | result (w : World) (t : ThreadId) {outcome : Except Fault Dispatched} (houtcome : Returns outcome) :
    Scripted ⟨w, t, .result outcome, []⟩
  | waits (m : Machine) (k : Except Fault Dispatched → Script) (block : Option Block) :
    Scripted (m.above [.script k block])

theorem Scripted.step (hm : m.Scripted) (hstep : m.step = .next m') : m'.Scripted := by
  cases hm with
  | run w t s block =>
    obtain rfl := Progress.next.inj hstep
    cases s with
    | done outcome => exact .result w t (returns_map outcome)
    | call c b k =>
      exact .waits ⟨w, t, .arrive (some ⟨c.route, c.receiver, c.name, c.args, b.block? block⟩), []⟩ k
        block
    | invoke kept receiver args b k =>
      exact .waits ⟨w, t, .ofKept w.kept[kept]? receiver args (b.block? block), []⟩ k block
    | «yield» args k =>
      cases block with
      | none => exact .run w t _ none
      | some b => exact .waits ⟨w, t, .run (b.body args) b.outer, []⟩ k (some b)
    | edit e k => exact .run _ t _ block
    | submit action k => exact .run _ t k block
    | ask q k => exact .run _ t _ block
  | result w t houtcome => cases hstep
  | waits m k block =>
    rw [step_above] at hstep
    cases hbefore : m.step with
    | next m₁ =>
      rw [hbefore] at hstep
      obtain rfl := Progress.next.inj hstep
      exact .waits m₁ k block
    | halted outcome w =>
      rw [hbefore] at hstep
      obtain rfl := Progress.next.inj hstep
      exact .run w m.thread (k outcome) block
    | blocked =>
      rw [hbefore] at hstep
      cases hstep

/-- What a script comes to is a value or a fault. -/
theorem Scripted.returns (hm : m.Scripted) (hends : m.Ends ds outcome w) : Returns outcome := by
  obtain ⟨last, hlast, hhalt⟩ := hends
  induction hlast with
  | refl m =>
    cases hm with
    | run w t s block => cases hhalt
    | result w t houtcome =>
      obtain ⟨rfl, rfl⟩ := Progress.halted.inj hhalt
      exact houtcome
    | waits m k block =>
      rw [step_above] at hhalt
      cases hbefore : m.step <;> rw [hbefore] at hhalt <;> cases hhalt
  | step hstep _ ih => exact ih (hm.step hstep) hhalt

/-- What a decision is carried out by, unless the answer is there already. -/
theorem scripted_ofDecision (w : World) (t : ThreadId) {d : Decision} (hd : ∀ answer, d ≠ .answer answer) :
    (ofDecision w t d).Scripted := by
  have hfails (f : Fault) : Returns (.error f) := fun d hd => by cases hd
  cases d with
  | answer answer => exact absurd rfl (hd answer)
  | fail f => exact .result w t (hfails f)
  | invoke m receiver args block =>
    cases htarget : m.target <;> simp only [ofDecision, Control.ofDecision, htarget]
    · exact .result w t (hfails _)
    · exact .run w t _ block

/-- A run that comes to an end is regular if it is so up to there. -/
theorem regular_of_halted {n : Nat} (hrun : m.run n = .halted outcome w) (hregular : m.Regular n)
    (steps : Nat) : m.Regular steps := by
  induction n generalizing m steps with
  | zero => cases hrun
  | succ n ih =>
    obtain ⟨hproper, hrest⟩ := hregular
    cases steps with
    | zero => exact trivial
    | succ steps =>
      refine ⟨hproper, ?_⟩
      simp only [run] at hrun
      cases hstep : m.step with
      | next m' =>
        rw [hstep] at hrun hrest
        exact ih hrun hrest steps
      | _ => exact trivial

theorem regular_of_leads (hleads : m.Leads ds m') (hregular : ∀ steps, m.Regular steps) (steps : Nat) :
    m'.Regular steps := by
  induction hleads with
  | refl m => exact hregular steps
  | step hstep _ ih =>
    refine ih fun steps => ?_
    have hrest := (hregular (steps + 1)).2
    rwa [hstep] at hrest

/-- On its whole course, a machine makes records below records that exist, and decides calls through call sites
for receivers whose class exists. -/
def Steady (m : Machine) : Prop := ∀ ds m', m.Leads ds m' → m'.ProperAtSites

theorem Steady.of_leads (hm : m.Steady) (hleads : m.Leads ds m') : m'.Steady :=
  fun _ _ hthen => hm _ _ (hleads.trans hthen)

theorem steady_of_regular (hregular : ∀ steps, m.Regular steps) : m.Steady :=
  fun _ _ hleads => (regular_of_leads hleads hregular 1).1.atSites

/-- The two steps come to the same, up to relations between machines and between worlds. -/
inductive Progress.Rel (R : Machine → Machine → Prop) (Q : World → World → Prop) :
    Progress → Progress → Prop where
  | next {m m' : Machine} (hm : R m m') : Rel R Q (.next m) (.next m')
  | halted (outcome : Except Fault Dispatched) {w w' : World} (hw : Q w w') :
    Rel R Q (.halted outcome w) (.halted outcome w')
  | blocked : Rel R Q .blocked .blocked

/-- Machines of which each has to do with the other take steps that decide the same and come to the
same. -/
def Lockstep (R : Machine → Machine → Prop) (Q : World → World → Prop) : Prop :=
  ∀ m m', R m m' → m'.decision? = m.decision? ∧ Progress.Rel R Q m.step m'.step

section Lockstep

variable {R : Machine → Machine → Prop} {Q : World → World → Prop} (hlock : Lockstep R Q)

include hlock

theorem Lockstep.flip : Lockstep (flip R) (flip Q) := by
  intro m m' hm
  obtain ⟨hdecision, hstep⟩ := hlock m' m hm
  refine ⟨hdecision.symm, ?_⟩
  generalize m'.step = progress at hstep
  generalize m.step = progress' at hstep
  cases hstep with
  | next hm => exact .next hm
  | halted outcome hw => exact .halted outcome hw
  | blocked => exact .blocked

theorem Lockstep.ends (hm : R m m') (hends : m.Ends ds outcome w) :
    ∃ w', m'.Ends ds outcome w' ∧ Q w w' := by
  obtain ⟨last, hleads, hhalt⟩ := hends
  induction hleads generalizing m' with
  | refl m =>
    obtain ⟨-, hstep⟩ := hlock m m' hm
    rw [hhalt] at hstep
    generalize hstep' : m'.step = progress at hstep
    cases hstep with
    | halted _ hw => exact ⟨_, ⟨m', .refl m', hstep'⟩, hw⟩
  | @step m n last ds hnext _ ih =>
    obtain ⟨hdecision, hstep⟩ := hlock m m' hm
    rw [hnext] at hstep
    generalize hstep' : m'.step = progress at hstep
    cases hstep with
    | next hn =>
      obtain ⟨w', ⟨last', hleads', hhalt'⟩, hw⟩ := ih hn hhalt
      rw [← hdecision]
      exact ⟨w', ⟨last', .step hstep' hleads', hhalt'⟩, hw⟩

theorem Lockstep.ends_of_ends {w' : World} (hm : R m m') (hends : m'.Ends ds outcome w') :
    ∃ w, m.Ends ds outcome w ∧ Q w w' :=
  hlock.flip.ends hm hends

end Lockstep

theorem Lockstep.comp {R R' : Machine → Machine → Prop} {Q Q' : World → World → Prop}
    (hfirst : Lockstep R Q) (hthen : Lockstep R' Q') :
    Lockstep (Relation.Comp R R') (Relation.Comp Q Q') := by
  rintro m m'' ⟨m', hm, hm'⟩
  obtain ⟨hdecision, hstep⟩ := hfirst m m' hm
  obtain ⟨hdecision', hstep'⟩ := hthen m' m'' hm'
  refine ⟨hdecision'.trans hdecision, ?_⟩
  generalize m.step = progress at hstep
  generalize m'.step = progress' at hstep hstep'
  generalize m''.step = progress'' at hstep'
  cases hstep with
  | next hn => cases hstep' with | next hn' => exact .next ⟨_, hn, hn'⟩
  | halted outcome hw => cases hstep' with | halted _ hw' => exact .halted outcome ⟨_, hw, hw'⟩
  | blocked => cases hstep' with | blocked => exact .blocked

/-- Machines that do the same by the same calls in twin worlds are in lockstep, if the first one is steady. -/
theorem lockstep_steady (modes : Array Mode) :
    Lockstep (fun m m' => m.AlikeBy modes (· = ·) m' ∧ m.Steady) (World.Twins modes) := by
  rintro m m' ⟨hm, hsteady⟩
  have hproper := (hsteady [] m (.refl m)).properFor
  have hlikens := Request.likens_eq modes
  have hstep := hm.step hlikens hproper
  have hleads {n : Machine} (hnext : m.step = .next n) := hsteady.of_leads (.step hnext (.refl n))
  refine ⟨hm.decision?_eq hlikens hproper, ?_⟩
  generalize m.step = progress at hstep hleads
  generalize m'.step = progress' at hstep
  cases hstep with
  | next hn => exact .next ⟨hn, hleads rfl⟩
  | halted outcome hw => exact .halted outcome hw
  | blocked => exact .blocked

end Machine

end LateBinding
