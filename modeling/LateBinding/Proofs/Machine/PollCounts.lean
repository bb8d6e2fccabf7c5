import LateBinding.Proofs.Machine.Courses
import LateBinding.Proofs.Machine.Polling

namespace LateBinding

namespace Safepoints

variable {α : Type}

/-- What is counted at safepoints while actions are run. -/
structure Counts where
  polls : Nat
  slowPolls : Nat
  actionsRun : Nat

/-- The same safepoints, after more has been counted. -/
def countedMore (c : Counts) (s : Safepoints α) : Safepoints α :=
  { s with
    polls := s.polls + c.polls
    slowPolls := s.slowPolls + c.slowPolls
    actionsRun := s.actionsRun + c.actionsRun }

/-- The same safepoints, after a number of further polls that were not counted as slow. -/
def polledMore (k : Nat) (s : Safepoints α) : Safepoints α := { s with polls := s.polls + k }

/-- What a thread has to do next, after more has been counted. -/
def Next.countedMore (c : Counts) : Next α → Next α
  | wait => .wait
  | run action s => .run action (s.countedMore c)
  | pass s => .pass (s.countedMore c)

theorem arrive_countedMore (c : Counts) (s : Safepoints α) :
    (s.countedMore c).arrive = (s.arrive.1, s.arrive.2.countedMore c) := by
  cases hrequested : s.requested <;>
    simp [arrive, countedMore, hrequested, Nat.add_right_comm]

theorem next_countedMore (c : Counts) (s : Safepoints α) (t : ThreadId) :
    (s.countedMore c).next t = (s.next t).countedMore c := by
  have hblocks : (s.countedMore c).blocks t = s.blocks t := rfl
  have hactions : (s.countedMore c).actions = s.actions := rfl
  rw [next, next, hblocks, hactions]
  split
  · rfl
  · cases s.actions with
    | nil => rfl
    | cons action rest =>
      simp only [Next.countedMore, refresh, isIdle, countedMore, Nat.add_right_comm]

end Safepoints

namespace World

def withSafepoints (w : World) (s : Safepoints Script) : World := { w with safepoints := s }

/-- The same world, after more has been counted at its safepoints. -/
def countedMore (c : Safepoints.Counts) (w : World) : World :=
  w.withSafepoints (w.safepoints.countedMore c)

/-- The same world, after a number of further polls. -/
def polledMore (k : Nat) (w : World) : World := w.withSafepoints (w.safepoints.polledMore k)

section Safepoints

variable (w : World) (s : Safepoints Script) (r : Request) (mode : Mode) (id : Nat)

theorem effectiveClass_withSafepoints (v : Value) :
    (w.withSafepoints s).effectiveClass v = w.effectiveClass v := rfl

theorem walk_withSafepoints (cls : ClassId) (name : Symbol) :
    (w.withSafepoints s).walk cls name =
      ((w.walk cls name).1, (w.walk cls name).2.withSafepoints s) := by
  cases hcached : w.options.lookupCache <;> simp only [walk, withSafepoints, hcached] <;> rfl

theorem lookup_withSafepoints (cls : ClassId) (name : Symbol) :
    (w.withSafepoints s).lookup cls name mode =
      ((w.lookup cls name mode).1, (w.lookup cls name mode).2.withSafepoints s) := by
  simp only [lookup, walk_withSafepoints]

theorem findMethod_withSafepoints (receiver : Value) (name : Symbol) :
    (w.withSafepoints s).findMethod receiver name =
      ((w.findMethod receiver name).1, (w.findMethod receiver name).2.withSafepoints s) := by
  simp only [findMethod, lookupAny, effectiveClass_withSafepoints, walk_withSafepoints]

theorem decideMissing_withSafepoints :
    (w.withSafepoints s).decideMissing r mode =
      ((w.decideMissing r mode).1, (w.decideMissing r mode).2.withSafepoints s) := by
  simp only [decideMissing, findMethod_withSafepoints]
  split
  · rfl
  · split
    · rfl
    · generalize w.findMethod r.receiver .methodMissing = asked
      obtain ⟨_ | hook, w'⟩ := asked <;> rfl

theorem decideFound_withSafepoints (found : Lookup Target) :
    (w.withSafepoints s).decideFound r mode found =
      ((w.decideFound r mode found).1, (w.decideFound r mode found).2.withSafepoints s) := by
  cases found <;> simp only [decideFound, decideMissing_withSafepoints]

theorem decideUncached_withSafepoints :
    (w.withSafepoints s).decideUncached r mode =
      ((w.decideUncached r mode).1, (w.decideUncached r mode).2.withSafepoints s) := by
  have hcount : { w.withSafepoints s with dispatches := (w.withSafepoints s).dispatches + 1 } =
      { w with dispatches := w.dispatches + 1 }.withSafepoints s := rfl
  obtain ⟨route, receiver, name, args, block⟩ := r
  cases receiver with
  | foreign f => rfl
  | _ =>
    simp only [decideUncached, hcount, effectiveClass_withSafepoints, lookup_withSafepoints,
      decideFound_withSafepoints]

theorem install_withSafepoints (entry : SiteEntry Target) :
    (w.withSafepoints s).install id entry =
      ((w.install id entry).1, (w.install id entry).2.withSafepoints s) := by
  have hsite : (w.withSafepoints s).sites[id]? = w.sites[id]? := rfl
  simp only [install, hsite]
  cases w.sites[id]? <;> rfl

theorem installThen_withSafepoints (entry : SiteEntry Target) {k : World → Decision × World}
    (hk : ∀ w : World, k (w.withSafepoints s) = ((k w).1, (k w).2.withSafepoints s)) :
    (w.withSafepoints s).installThen id entry k =
      ((w.installThen id entry k).1, (w.installThen id entry k).2.withSafepoints s) := by
  simp only [installThen, install_withSafepoints]
  generalize w.install id entry = installed
  obtain ⟨_ | _, w'⟩ := installed
  · rfl
  · exact hk w'

theorem decideMiss_withSafepoints (g : Guard) (generation : Nat) :
    (w.withSafepoints s).decideMiss id mode g generation r =
      ((w.decideMiss id mode g generation r).1,
        (w.decideMiss id mode g generation r).2.withSafepoints s) := by
  simp only [decideMiss, lookup_withSafepoints]
  generalize w.lookup g.cls g.name mode = looked
  obtain ⟨found, w'⟩ := looked
  cases found with
  | found m => exact w'.installThen_withSafepoints s id _ fun w => rfl
  | _ =>
    simp only
    split
    · exact w'.installThen_withSafepoints s id _ fun w => w.decideMissing_withSafepoints s r mode
    · exact w'.decideMissing_withSafepoints s r mode

theorem decideRemembered_withSafepoints (remembered : Remembered Target) :
    (w.withSafepoints s).decideRemembered r mode remembered =
      ((w.decideRemembered r mode remembered).1,
        (w.decideRemembered r mode remembered).2.withSafepoints s) := by
  cases remembered with
  | method m => rfl
  | notFound => exact w.decideMissing_withSafepoints s r mode

theorem decideAt_withSafepoints (site : CallSite Target) :
    (w.withSafepoints s).decideAt site r =
      ((w.decideAt site r).1, (w.decideAt site r).2.withSafepoints s) := by
  have hmodify (w : World) (f : CallSite Target → CallSite Target) :
      (w.withSafepoints s).modifySite site.id f = (w.modifySite site.id f).withSafepoints s := rfl
  have hstamp (w : World) : (w.withSafepoints s).hierarchy = w.hierarchy := rfl
  obtain ⟨route, receiver, name, args, block⟩ := r
  cases receiver with
  | foreign f => rfl
  | _ =>
    simp only [decideAt, hmodify, effectiveClass_withSafepoints, hstamp]
    split
    · exact decideUncached_withSafepoints ..
    · split
      · rfl
      · split
        · exact decideRemembered_withSafepoints ..
        · exact decideMiss_withSafepoints ..

/-- Deciding a call neither looks at the safepoints nor changes them. -/
theorem decide_withSafepoints :
    (w.withSafepoints s).decide r = ((w.decide r).1, (w.decide r).2.withSafepoints s) := by
  simp only [decide]
  split
  · exact w.decideUncached_withSafepoints s r _
  · rename_i id hroute
    have hsite : (w.withSafepoints s).sites[id]? = w.sites[id]? := rfl
    rw [hsite]
    cases w.sites[id]? with
    | none => rfl
    | some site => exact w.decideAt_withSafepoints s r site

theorem safepoints_decide : (w.decide r).2.safepoints = w.safepoints := by
  have hsame := w.decide_withSafepoints w.safepoints r
  exact congrArg (fun decided => decided.2.safepoints) hsame

theorem answer_withSafepoints (q : Query) :
    (w.withSafepoints s).answer q = ((w.answer q).1, (w.answer q).2.withSafepoints s) := by
  cases q with
  | findMethod receiver name => simp only [answer, findMethod_withSafepoints]
  | keepMethod receiver name =>
    simp only [answer, findMethod_withSafepoints]
    rfl
  | _ => rfl

end Safepoints

theorem Alike.polledMore {w w' : World} (hw : w.Alike w') (k : Nat) :
    (w.polledMore k).Alike (w'.polledMore k) :=
  { hw with safepoints := congrArg (Safepoints.polledMore k) hw.safepoints }

variable (c : Safepoints.Counts) (w : World)

theorem decide_countedMore (r : Request) :
    (w.countedMore c).decide r = ((w.decide r).1, (w.decide r).2.countedMore c) := by
  rw [countedMore, decide_withSafepoints, countedMore, safepoints_decide]

theorem answer_countedMore (q : Query) :
    (w.countedMore c).answer q = ((w.answer q).1, (w.answer q).2.countedMore c) := by
  rw [countedMore, answer_withSafepoints, countedMore, safepoints_answer]

end World

namespace Machine

/-- The same machine, after more has been counted at the safepoints of its world. -/
def countedMore (c : Safepoints.Counts) (m : Machine) : Machine :=
  { m with world := m.world.countedMore c }

/-- The same machine, in a world with a number of further polls. -/
def polledMore (k : Nat) (m : Machine) : Machine := { m with world := m.world.polledMore k }

/-- What a step comes to, after more has been counted at the safepoints of its world. -/
def Progress.countedMore (c : Safepoints.Counts) : Progress → Progress
  | next m => .next (m.countedMore c)
  | halted outcome w => .halted outcome (w.countedMore c)
  | blocked => .blocked

variable {c : Safepoints.Counts} {m m' : Machine} {ds : List Decision} {outcome : Except Fault Dispatched}

theorem enter_countedMore (m : Machine) (w : World) (r : Option Request) :
    (m.countedMore c).enter (w.countedMore c) r = (m.enter w r).countedMore c := by
  cases r with
  | none => rfl
  | some r => simp only [enter, World.decide_countedMore, countedMore]

theorem runScript_countedMore (m : Machine) (block : Option Block) (s : Script) :
    (m.countedMore c).runScript block s = (m.runScript block s).countedMore c := by
  cases s with
  | «yield» args next => cases block <;> rfl
  | ask q next =>
    have hworld : (m.countedMore c).world = m.world.countedMore c := rfl
    simp only [runScript, hworld, World.answer_countedMore]
    rfl
  | _ => rfl

theorem arrive_countedMore (m : Machine) (r : Option Request) :
    (m.countedMore c).arrive r = (m.arrive r).countedMore c := by
  have harrive := m.world.safepoints.arrive_countedMore c
  have hworld : (m.countedMore c).world.safepoints = m.world.safepoints.countedMore c := rfl
  simp only [arrive, hworld, harrive]
  generalize m.world.safepoints.arrive = arrived
  obtain ⟨_ | _, s⟩ := arrived
  · exact m.enter_countedMore { m.world with safepoints := s } r
  · rfl

theorem atSafepoint_countedMore (m : Machine) (r : Option Request) :
    (m.countedMore c).atSafepoint r = (m.atSafepoint r).map (countedMore c) := by
  have hnext := m.world.safepoints.next_countedMore c m.thread
  have hworld : (m.countedMore c).world.safepoints = m.world.safepoints.countedMore c := rfl
  have hthread : (m.countedMore c).thread = m.thread := rfl
  simp only [atSafepoint, hworld, hthread, hnext]
  cases m.world.safepoints.next m.thread with
  | wait => rfl
  | run action s => rfl
  | pass s => exact congrArg some (m.enter_countedMore { m.world with safepoints := s } r)

theorem step_countedMore (c : Safepoints.Counts) (m : Machine) :
    (m.countedMore c).step = m.step.countedMore c := by
  obtain ⟨world, thread, control, stack⟩ := m
  cases control with
  | run s block => exact congrArg Progress.next (runScript_countedMore _ block s)
  | arrive r => exact congrArg Progress.next (arrive_countedMore _ r)
  | poll r =>
    have hat := atSafepoint_countedMore (c := c) ⟨world, thread, .poll r, stack⟩ r
    simp only [countedMore] at hat
    simp only [step, countedMore, hat]
    cases atSafepoint ⟨world, thread, .poll r, stack⟩ r <;> rfl
  | result outcome =>
    cases stack with
    | nil => rfl
    | cons top rest =>
      cases top with
      | script next block => rfl
      | safepoint r => cases outcome <;> rfl

theorem deciding?_countedMore (c : Safepoints.Counts) (m : Machine) :
    (m.countedMore c).deciding? = m.deciding?.map fun p => (p.1.countedMore c, p.2) := by
  obtain ⟨world, thread, control, stack⟩ := m
  have harrive := world.safepoints.arrive_countedMore c
  have hnext := world.safepoints.next_countedMore c thread
  cases control with
  | arrive r =>
    cases r with
    | none => rfl
    | some r =>
      simp only [deciding?, countedMore, World.countedMore, World.withSafepoints, harrive]
      generalize world.safepoints.arrive = arrived
      obtain ⟨_ | _, s⟩ := arrived <;> rfl
  | poll r =>
    cases r with
    | none => rfl
    | some r =>
      simp only [deciding?, countedMore, World.countedMore, World.withSafepoints, hnext]
      cases world.safepoints.next thread <;> rfl
  | _ => rfl

theorem decision?_countedMore (c : Safepoints.Counts) (m : Machine) :
    (m.countedMore c).decision? = m.decision? := by
  have hinvoking : (m.countedMore c).invoking? = m.invoking? := rfl
  rw [decision?, decision?, hinvoking, deciding?_countedMore, Option.map_map]
  simp only [Function.comp_def, World.decide_countedMore]

/-- A machine whose world has counted more takes the same steps, and its world has still counted as many more
when it halts. -/
theorem lockstep_countedMore (c : Safepoints.Counts) :
    Lockstep (fun m m' => m' = m.countedMore c) (fun w w' => w' = w.countedMore c) := by
  rintro m m' rfl
  refine ⟨decision?_countedMore c m, ?_⟩
  rw [step_countedMore]
  cases m.step with
  | next n => exact .next rfl
  | halted outcome w => exact .halted outcome rfl
  | blocked => exact .blocked

theorem lockstep_polledMore (k : Nat) :
    Lockstep (fun m m' => m' = m.polledMore k) (fun w w' => w' = w.polledMore k) :=
  lockstep_countedMore ⟨k, 0, 0⟩

end Machine

end LateBinding
