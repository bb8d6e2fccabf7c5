namespace LateBinding

/-- A thread of the embedding program. -/
structure ThreadId where
  number : Nat
deriving DecidableEq, Inhabited

/-- What is to be done at safepoints, for actions in `α`. The counts stand for numbers of 64 bits. -/
structure Safepoints (α : Type) where
  /-- There is something to do. -/
  requested : Bool
  /-- The actions that wait, oldest first. -/
  actions : List α
  /-- One entry for each pause that is held: the thread that holds it. -/
  holders : List ThreadId
  polls : Nat
  /-- Polls that found something to do. -/
  slowPolls : Nat
  /-- Actions that were begun. -/
  actionsRun : Nat
  /-- Pauses that were taken. -/
  pauses : Nat

namespace Safepoints

variable {α : Type}

/-- Nothing is to be done, and nothing was. -/
def idle : Safepoints α :=
  { requested := false, actions := [], holders := [], polls := 0, slowPolls := 0, actionsRun := 0,
    pauses := 0 }

instance : Inhabited (Safepoints α) := ⟨idle⟩

/-- No action waits and no pause is held. -/
def isIdle (s : Safepoints α) : Bool := s.actions.isEmpty && s.holders.isEmpty

def isPaused (s : Safepoints α) : Bool := !s.holders.isEmpty

def pending (s : Safepoints α) : Nat := s.actions.length

/-- A pause keeps a thread from passing. A thread that holds one itself is not kept. -/
def blocks (s : Safepoints α) (t : ThreadId) : Bool := s.isPaused && !s.holders.contains t

/-- Sets the flag by what there is to do. -/
def refresh (s : Safepoints α) : Safepoints α := { s with requested := !s.isIdle }

def submit (s : Safepoints α) (action : α) : Safepoints α :=
  { s with actions := s.actions ++ [action], requested := true }

def pause (s : Safepoints α) (t : ThreadId) : Safepoints α :=
  { s with holders := s.holders ++ [t], requested := true, pauses := s.pauses + 1 }

/-- A thread gives up one of its pauses. -/
def release (s : Safepoints α) (t : ThreadId) : Safepoints α :=
  { s with holders := s.holders.erase t }.refresh

/-- A poll begins. The answer says whether there is something to do. -/
def arrive (s : Safepoints α) : Bool × Safepoints α :=
  if s.requested then (true, { s with polls := s.polls + 1, slowPolls := s.slowPolls + 1 })
  else (false, { s with polls := s.polls + 1 })

/-- What a thread at a safepoint has to do next. -/
inductive Next (α : Type) where
  /-- Wait until the pauses of others are over. -/
  | wait
  /-- Run an action, then ask again. -/
  | run (action : α) (s : Safepoints α)
  /-- Go on. -/
  | pass (s : Safepoints α)

/-- The next step of a thread at a safepoint. -/
def next (s : Safepoints α) (t : ThreadId) : Next α :=
  if s.blocks t then .wait
  else
    match s.actions with
    | [] => .pass s.refresh
    | action :: rest =>
      .run action { { s with actions := rest }.refresh with actionsRun := s.actionsRun + 1 }

/-- The flag is up exactly if there is something to do. -/
def Coherent (s : Safepoints α) : Prop := s.requested = !s.isIdle

theorem coherent_idle : (idle : Safepoints α).Coherent := rfl

theorem Coherent.submit {s : Safepoints α} (action : α) : (s.submit action).Coherent := by
  simp [Coherent, Safepoints.submit, isIdle]

theorem Coherent.pause {s : Safepoints α} (t : ThreadId) : (s.pause t).Coherent := by
  simp [Coherent, Safepoints.pause, isIdle]

theorem Coherent.release {s : Safepoints α} (t : ThreadId) : (s.release t).Coherent := rfl

end Safepoints

end LateBinding
