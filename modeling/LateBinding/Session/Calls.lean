import LateBinding.Session.Hierarchy
import LateBinding.Session.Values

namespace LateBinding

/-- A change of a method that is in no table. -/
inductive Redress where
  | visibility (v : Visibility) (owner : ClassRef) (generation : Nat)
  | alias (name : Symbol) (owner : ClassRef) (generation : Nat)

/-- A method that is in no table, as a program writes it down. -/
inductive LooseMethod where
  | method (name : Symbol) (owner : ClassRef) (visibility : Visibility) (flags : MethodFlags)
    (generation : Nat) (body : Expr)
  | tombstone (name : Symbol) (owner : ClassRef) (generation : Nat)

/-- A receiver, a name and arguments as a program writes them down. -/
structure LabelledCall where
  receiver : Literal
  name : Symbol
  args : List Literal
  block : Option Expr

/-- A command that makes calls, or asks how calls are made. -/
inductive CallCommand where
  | newSite (label : String) (mode : Mode) (limit : Option Nat)
  | siteInfo (site : String)
  /-- A call through a site, with all that is known of its outcome. -/
  | execute (site : String) (c : LabelledCall)
  /-- A call through a site, for its value. -/
  | sendVia (site : String) (c : LabelledCall)
  /-- A question through a site that is there for questions. -/
  | respondVia (site : String) (c : LabelledCall)
  /-- A call, with all that is known of its outcome. -/
  | dispatch (mode : Mode) (c : LabelledCall)
  /-- A call, for its value. -/
  | send (mode : Mode) (c : LabelledCall)
  /-- A question whether the receiver has a method. -/
  | respond (mode : Mode) (c : LabelledCall)
  | findMethod (receiver : Literal) (name : Symbol)
  | effectiveClass (receiver : Literal)
  | dispatches
  | options
  /-- Makes a method, changes it, and runs it. -/
  | invoke (m : LooseMethod) (changes : List Redress) (receiver : Literal) (args : List Literal)

namespace Session

/-- The request that is meant. -/
def request (s : Session) (route : Route) (c : LabelledCall) :
    Except String (Request × Session) := do
  let (receiver, s) ← s.resolve c.receiver
  let (args, s) ← s.resolveAll c.args
  return (⟨route, receiver, c.name, args, c.block.map fun e => e.block s.defaultSuperclass⟩, s)

/-- Makes a call and waits for its end. -/
def makeCall (s : Session) (route : Route) (c : LabelledCall) (reply : Dispatched → Reply) :
    Outcome := do
  let (r, s) ← s.request route c
  s.follow reply (.ofRequest s.world mainThread r)

/-- The method that is meant. -/
def looseMethod (s : Session) : LooseMethod → Except String (Method Target × Session)
  | .tombstone name owner generation => do
    return (.tombstone name (← s.notebook.cls owner) generation, s)
  | .method name owner visibility flags generation body => do
    let owner ← s.notebook.cls owner
    let (body, s) ← s.bodyOf body
    let m := Method.new name owner visibility ⟨s.world.serial, body⟩ flags generation
    return (m, s.within { s.world with serial := s.world.serial + 1 })

/-- The method after some changes. -/
def redress (s : Session) (m : Method Target) : List Redress → Except String (Method Target)
  | [] => .ok m
  | .visibility v owner generation :: rest => do
    s.redress (m.withVisibility (← s.notebook.cls owner) v generation) rest
  | .alias name owner generation :: rest => do
    s.redress (m.aliased name (← s.notebook.cls owner) generation) rest

def runCall (s : Session) : CallCommand → Outcome
  | .newSite label mode limit =>
    let limit := limit.getD s.world.options.siteLimit
    let (id, world) := s.world.newSite mode limit
    ((s.within world).noting (·.bindSite label id)).reply (.site id limit mode)
  | .siteInfo site => do
    match s.world.sites[← s.notebook.site site]? with
    | some site => s.reply (.siteInfo site.hitRate site.inspect)
    | none => .error site
  | .execute site c => do s.makeCall (.site (← s.notebook.site site)) c .dispatched
  | .sendVia site c => do s.makeCall (.site (← s.notebook.site site)) c fun d => .value d.toValue
  | .respondVia site c => do
    let id ← s.notebook.site site
    match s.world.sites[id]? with
    | none => .error site
    | some site =>
      if site.mode.isRespondTo then s.makeCall (.site id) c fun d => .truth d.toBool
      else s.refuse (.notARespondSite id)
  | .dispatch mode c => s.makeCall (.uncached mode) c .dispatched
  | .send mode c => s.makeCall (.uncached mode) c fun d => .value d.toValue
  | .respond mode c => s.makeCall (.uncached mode.asking) c fun d => .truth d.toBool
  | .findMethod receiver name => do
    let (receiver, s) ← s.resolve receiver
    let (found, world) := s.world.findMethod receiver name
    (s.within world).reply (.found (found.map Method.info))
  | .effectiveClass receiver => do
    let (receiver, s) ← s.resolve receiver
    s.reply (.cls (s.world.effectiveClass receiver))
  | .dispatches => s.reply (.number s.world.dispatches)
  | .options => s.reply (.options s.world.options)
  | .invoke m changes receiver args => do
    let (m, s) ← s.looseMethod m
    let m ← s.redress m changes
    let (receiver, s) ← s.resolve receiver
    let (args, s) ← s.resolveAll args
    match Machine.run patience (.ofDecision s.world mainThread (.invoke m receiver args none)) with
    | .halted outcome world =>
      (s.within world).reply (.invoked m.info (outcome.map Dispatched.toValue))
    | _ => .error "a run without end"

end Session

end LateBinding
