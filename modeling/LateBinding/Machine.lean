import LateBinding.Dispatch

namespace LateBinding

/-- What waits for the outcome of a call. -/
inductive Waiting where
  /-- A script, which was called with a block or without one. -/
  | script (k : Except Fault Dispatched → Script) (block : Option Block)
  /-- A thread at a safepoint that runs an action. It goes on with a call if there is one. -/
  | safepoint (r : Option Request)

/-- What the machine is about to do. -/
inductive Control where
  /-- Go on with a script. -/
  | run (s : Script) (block : Option Block)
  /-- Come to a safepoint, on the way to a call if there is one. -/
  | arrive (r : Option Request)
  /-- See what there is to do at a safepoint, then go on with the call if there is one. -/
  | poll (r : Option Request)
  /-- Hand an outcome to what waits for it. -/
  | result (outcome : Except Fault Dispatched)

/-- What the machine does once a call is decided. -/
def Control.ofDecision : Decision → Control
  | .answer d => .result (.ok d)
  | .fail f => .result (.error f)
  | .invoke m receiver args block =>
    match m.target with
    | some target => .run (target.body ⟨m.info, receiver, args, block.isSome⟩) block
    | none => .result (.error (.tombstoneInvoked m.name))

/-- What the machine does to run a kept method. A number under which none is kept comes to nothing. -/
def Control.ofKept (kept : Option (Method Target)) (receiver : Value) (args : List Value)
    (block : Option Block) : Control :=
  match kept with
  | some m => .ofDecision (.invoke m receiver args block)
  | none => .result (.ok .missing)

/-- A state of the machine that carries out scripts. A step answers one question, goes from one part of a call
to the next, or hands an outcome to what waits for it, so that every moment of a call is a state. -/
structure Machine where
  world : World
  thread : ThreadId
  control : Control
  stack : List Waiting

namespace Machine

/-- Goes on behind a safepoint: with a call, or back to where there was none to make. -/
def enter (m : Machine) (world : World) : Option Request → Machine
  | none => { m with world, control := .result (.ok (.returned .nil)) }
  | some r =>
    let (decision, world) := world.decide r
    { m with world, control := .ofDecision decision }

/-- Comes to a safepoint, and passes it at once if there is nothing to do. -/
def arrive (m : Machine) (r : Option Request) : Machine :=
  match m.world.safepoints.arrive with
  | (true, safepoints) => { m with world := { m.world with safepoints }, control := .poll r }
  | (false, safepoints) => m.enter { m.world with safepoints } r

def runScript (m : Machine) (block : Option Block) : Script → Machine
  | .done outcome => { m with control := .result (outcome.map .returned) }
  | .call c b k =>
    { m with
      control := .arrive (some ⟨c.route, c.receiver, c.name, c.args, b.block? block⟩)
      stack := .script k block :: m.stack }
  | .invoke kept receiver args b k =>
    { m with
      control := .ofKept m.world.kept[kept]? receiver args (b.block? block)
      stack := .script k block :: m.stack }
  | .yield args k =>
    match block with
    | some b => { m with control := .run (b.body args) b.outer, stack := .script k block :: m.stack }
    | none => { m with control := .run (k (.error .noBlockGiven)) block }
  | .edit e k =>
    let (outcome, world) := m.world.edit e
    { m with world, control := .run (k outcome) block }
  | .submit action k =>
    let world := { m.world with safepoints := m.world.safepoints.submit action }
    { m with world, control := .run k block }
  | .ask q k =>
    let (answer, world) := m.world.answer q
    { m with world, control := .run (k answer) block }

/-- Does what there is to do at a safepoint; no machine results if the thread has to wait. -/
def atSafepoint (m : Machine) (r : Option Request) : Option Machine :=
  match m.world.safepoints.next m.thread with
  | .wait => none
  | .run action safepoints =>
    some { m with
      world := { m.world with safepoints }, control := .run action none,
      stack := .safepoint r :: m.stack }
  | .pass safepoints => some (m.enter { m.world with safepoints } r)

/-- Hands an outcome to what waits for it. An action that fails stops what waits at the safepoint. -/
def resume (m : Machine) (outcome : Except Fault Dispatched) (stack : List Waiting) :
    Waiting → Machine
  | .script k block => { m with control := .run (k outcome) block, stack }
  | .safepoint r =>
    match outcome with
    | .ok _ => { m with control := .poll r, stack }
    | .error f => { m with control := .result (.error f), stack }

/-- What a step comes to. -/
inductive Progress where
  | next (m : Machine)
  /-- Nothing waits for the outcome. -/
  | halted (outcome : Except Fault Dispatched) (world : World)
  /-- The thread has to wait at a safepoint. -/
  | blocked

def step (m : Machine) : Progress :=
  match m.control with
  | .run s block => .next (m.runScript block s)
  | .arrive r => .next (m.arrive r)
  | .poll r =>
    match m.atSafepoint r with
    | some m => .next m
    | none => .blocked
  | .result outcome =>
    match m.stack with
    | [] => .halted outcome m.world
    | top :: stack => .next (m.resume outcome stack top)

/-- What a run comes to within a number of steps. -/
inductive End where
  | halted (outcome : Except Fault Dispatched) (world : World)
  /-- The thread waits at a safepoint. -/
  | blocked (m : Machine)
  | unfinished

/-- Follows a run for a number of steps, since a script may call itself for ever. -/
def run : Nat → Machine → End
  | 0, _ => .unfinished
  | steps + 1, m =>
    match m.step with
    | .next m => run steps m
    | .halted outcome world => .halted outcome world
    | .blocked => .blocked m

def ofRequest (w : World) (thread : ThreadId) (r : Request) : Machine :=
  { world := w, thread, control := .arrive (some r), stack := [] }

def ofPoll (w : World) (thread : ThreadId) : Machine :=
  { world := w, thread, control := .arrive none, stack := [] }

def ofDecision (w : World) (thread : ThreadId) (d : Decision) : Machine :=
  { world := w, thread, control := .ofDecision d, stack := [] }

def ofScript (w : World) (thread : ThreadId) (s : Script) (block : Option Block) : Machine :=
  { world := w, thread, control := .run s block, stack := [] }

/-- A finished run does not depend on how long it is followed. -/
theorem run_halted_of_le {n k : Nat} {m : Machine} {outcome : Except Fault Dispatched}
    {world : World} (hrun : run n m = .halted outcome world) (hle : n ≤ k) :
    run k m = .halted outcome world := by
  induction n generalizing m k with
  | zero => simp [run] at hrun
  | succ n ih =>
    obtain ⟨k, rfl⟩ : ∃ j, k = j + 1 := ⟨k - 1, by omega⟩
    simp only [run] at hrun ⊢
    cases hstep : m.step with
    | next m' =>
      rw [hstep] at hrun
      exact ih hrun (by omega)
    | halted o w =>
      rw [hstep] at hrun
      exact hrun
    | blocked =>
      rw [hstep] at hrun
      cases hrun

end Machine

end LateBinding
