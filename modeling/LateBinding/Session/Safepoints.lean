import LateBinding.Session.Basic

namespace LateBinding

/-- A command about safepoints. -/
inductive SafepointCommand where
  | submit (action : Expr)
  | interrupt (reason : String)
  | poll
  | pause (label : String)
  | resume (label : String)
  | counters
  | pollElsewhere

namespace Session

/-- The session with changed safepoints. -/
def atSafepoints (s : Session) (change : Safepoints Script → Safepoints Script) : Session :=
  s.within { s.world with safepoints := change s.world.safepoints }

/-- Takes a pause under a label, beside those that have this label already. -/
def pause (s : Session) (label : String) : Session :=
  { s.atSafepoints (·.pause mainThread) with pauses := s.pauses ++ [label] }

/-- Gives up one pause with a label, if there is one. -/
def release (s : Session) (label : String) : Session :=
  if label ∈ s.pauses then
    { s.atSafepoints (·.release mainThread) with pauses := s.pauses.erase label }
  else s

def releaseAll (s : Session) : Session := s.pauses.foldl release s

/-- The reply after a poll on another thread. -/
def crossed (s : Session) (blocked : Bool) : Machine.End → Outcome
  | .halted outcome world => (s.within world).reply (.crossing blocked (outcome.map fun _ => ()))
  | _ => .error "a run without end"

/-- Polls on another thread, and gives up all pauses if it has to wait. -/
def pollElsewhere (s : Session) : Outcome :=
  match Machine.run patience (.ofPoll s.world otherThread) with
  | .blocked m =>
    let s := (s.within m.world).releaseAll
    s.crossed true (Machine.run patience { m with world := s.world })
  | finished => s.crossed false finished

def runSafepoint (s : Session) : SafepointCommand → Outcome
  | .submit action =>
    (s.atSafepoints (·.submit (action.action s.defaultSuperclass))).reply .done
  | .interrupt reason => (s.atSafepoints (·.submit (.fail (.interrupted reason)))).reply .done
  | .poll => s.follow (fun _ => .done) (.ofPoll s.world mainThread)
  | .pause label => (s.pause label).reply .done
  | .resume label => (s.release label).reply .done
  | .counters =>
    let p := s.world.safepoints
    s.reply (.safepoints p.isPaused p.pending p.polls p.slowPolls p.actionsRun p.pauses)
  | .pollElsewhere => s.pollElsewhere

end Session

end LateBinding
