import LateBinding.Session.Calls
import LateBinding.Session.Core
import LateBinding.Session.Hierarchy
import LateBinding.Session.Safepoints

namespace LateBinding

/-- A command of a program. -/
inductive Command where
  | hierarchy (c : HierarchyCommand)
  | value (c : ValueCommand)
  | core (c : CoreCommand)
  | call (c : CallCommand)
  | safepoint (c : SafepointCommand)

/-- What can be seen of a call site. -/
structure SiteReport where
  kind : SiteState.Kind
  size : Nat
  isMegamorphic : Bool
  classes : List ClassId
  accesses : Nat
  hits : Nat
  misses : Nat
  bypasses : Nat

def CallSite.report {τ : Type} (s : CallSite τ) : SiteReport :=
  { kind := s.state.kind, size := s.state.size, isMegamorphic := s.isMegamorphic,
    classes := s.classes, accesses := s.accesses, hits := s.hits, misses := s.misses,
    bypasses := s.bypasses }

/-- What is reported of a command. -/
structure Report where
  outcome : Except Fault Reply
  generation : Nat
  epoch : Nat
  /-- The call site that was watched. -/
  site : Option SiteReport
  log : List Value

namespace Session

/-- Carries out a command. A session of a bare hierarchy refers to no calls. -/
def perform (s : Session) : Command → Outcome
  | .hierarchy c => s.runHierarchy c
  | .value c => s.runValue c
  | .core c => s.runCore c
  | .call c => if s.hasCalls then s.runCall c else .error "calls"
  | .safepoint c => if s.hasCalls then s.runSafepoint c else .error "safepoints"

/-- What can be seen of a call site with a label. -/
def siteReport (s : Session) (label : String) : Except String SiteReport := do
  match s.world.sites[← s.notebook.site label]? with
  | some site => return site.report
  | none => .error label

/-- Carries out a command with a new log, and reports it. The site with the label that is watched, if
there is such a label, is reported as the command leaves it. -/
def step (s : Session) (c : Command) (watched : Option String) :
    Except String (Report × Session) := do
  let (outcome, s) ← (s.noting Notebook.clearLog).perform c
  let site ← watched.mapM s.siteReport
  return ({ outcome, generation := s.world.hierarchy.generation,
            epoch := s.world.hierarchy.epoch, site, log := s.notebook.log }, s)

end Session

end LateBinding
