import LateBinding.World

namespace LateBinding

/-- A call with the block that is passed to it. -/
structure Request where
  route : Route
  receiver : Value
  name : Symbol
  args : List Value
  block : Option Block

/-- What is to be done about a call. Everything that caches and counters have to do with the call happens
when this is decided; running the method is another matter. -/
inductive Decision where
  /-- A method is to be run; what it returns is the answer. -/
  | invoke (m : Method Target) (receiver : Value) (args : List Value) (block : Option Block)
  | answer (d : Dispatched)
  | fail (f : Fault)

/-- What is to be done about an outcome that is there already. -/
def Decision.ofOutcome : Except Fault Dispatched → Decision
  | .ok d => .answer d
  | .error f => .fail f

/-- What is to be done about a call whose method was found. -/
def Request.found (r : Request) (mode : Mode) (m : Method Target) : Decision :=
  if mode.isRespondTo then .answer (.responds !m.isUnimplemented)
  else .invoke m r.receiver r.args r.block

namespace World

/-- What is to be done about a call that has found no method: unless the mode says otherwise, the
hook of the receiver is run with the name in front of the arguments. -/
def decideMissing (w : World) (r : Request) (mode : Mode) : Decision × World :=
  if mode.isRespondTo then (.answer (.responds false), w)
  else if mode.returnsMissing then (.answer .missing, w)
  else
    match w.findMethod r.receiver .methodMissing with
    | (some hook, w) => (.invoke hook r.receiver (.symbol r.name :: r.args) r.block, w)
    | (none, w) =>
      (.fail (.hookMissing (w.core.describe w.hierarchy r.receiver) r.name), w)

/-- What is to be done about a call by what a look-up for it came to. -/
def decideFound (w : World) (r : Request) (mode : Mode) : Lookup Target → Decision × World
  | .found m => (r.found mode m, w)
  | _ => w.decideMissing r mode

/-- Decides a call of a foreign object, which answers for itself. -/
def decideForeign (w : World) (f : ForeignRef) (r : Request) (mode : Mode) : Decision :=
  .ofOutcome ((w.foreignObject f).dispatch f r.name r.args mode)

/-- Decides a call by looking for its method afresh. -/
def decideUncached (w : World) (r : Request) (mode : Mode) : Decision × World :=
  let w := { w with dispatches := w.dispatches + 1 }
  match r.receiver with
  | .foreign f => (w.decideForeign f r mode, w)
  | receiver =>
    let (found, w) := w.lookup (w.effectiveClass receiver) r.name mode
    w.decideFound r mode found

def modifySite (w : World) (id : Nat) (f : CallSite Target → CallSite Target) : World :=
  { w with sites := w.sites.modify id f }

def install (w : World) (id : Nat) (entry : SiteEntry Target) : Except Fault Unit × World :=
  match w.sites[id]? with
  | none => (.ok (), w)
  | some s =>
    let (installed, s) := s.install w.hierarchy.stampOf? entry
    (installed, w.modifySite id fun _ => s)

/-- Decides a call that the memory of its site answers. -/
def decideRemembered (w : World) (r : Request) (mode : Mode) :
    Remembered Target → Decision × World
  | .method m => (r.found mode m, w)
  | .notFound => w.decideMissing r mode

/-- Puts an entry into the memory of a call site, then goes on. -/
def installThen (w : World) (id : Nat) (entry : SiteEntry Target)
    (k : World → Decision × World) : Decision × World :=
  match w.install id entry with
  | (.ok (), w) => k w
  | (.error f, w) => (.fail f, w)

/-- Decides a call that the memory of its site does not answer, and remembers what the look-up came
to. That there is no method is remembered only where it is asked for. -/
def decideMiss (w : World) (id : Nat) (mode : Mode) (g : Guard) (generation : Nat) (r : Request) :
    Decision × World :=
  let (found, w) := w.lookup g.cls g.name mode
  match found with
  | .found m => w.installThen id ⟨g, .method m, generation⟩ fun w => (r.found mode m, w)
  | _ =>
    if mode.isRespondTo then
      w.installThen id ⟨g, .notFound, generation⟩ fun w => w.decideMissing r mode
    else w.decideMissing r mode

/-- Decides a call through a call site. -/
def decideAt (w : World) (s : CallSite Target) (r : Request) : Decision × World :=
  let w := w.modifySite s.id .countAccess
  match r.receiver with
  | .foreign f => (w.decideForeign f r s.mode, w)
  | receiver =>
    if s.isMegamorphic then (w.modifySite s.id .countBypass).decideUncached r s.mode
    else
      let cls := w.effectiveClass receiver
      match w.hierarchy.stampOf? cls with
      | none => (.fail (.unknownClass cls), w)
      | some generation =>
        let g : Guard := ⟨cls, r.name⟩
        match s.answerFor? g generation with
        | some remembered => (w.modifySite s.id .countHit).decideRemembered r s.mode remembered
        | none => (w.modifySite s.id .countMiss).decideMiss s.id s.mode g generation r

/-- Decides a call by its route. A site that does not exist carries out no call. -/
def decide (w : World) (r : Request) : Decision × World :=
  match r.route with
  | .uncached mode => w.decideUncached r mode
  | .site id =>
    match w.sites[id]? with
    | some s => w.decideAt s r
    | none => (.answer .missing, w)

end World

end LateBinding
