import LateBinding.Session.Values

namespace LateBinding

/-- A core class that a program can exchange. -/
inductive CoreField where
  | integer
  | float
  | symbol
  | string
  | nilClass
  | cls
  | module
deriving DecidableEq

/-- The core classes with one of them exchanged. -/
def CoreClasses.set (core : CoreClasses) (field : CoreField) (id : ClassId) : CoreClasses :=
  match field with
  | .integer => { core with integer := id }
  | .float => { core with float := id }
  | .symbol => { core with symbol := id }
  | .string => { core with string := id }
  | .nilClass => { core with nilClass := id }
  | .cls => { core with cls := id }
  | .module => { core with module := id }

/-- A command about core classes or look-ups. -/
inductive CoreCommand where
  | bootstrap
  | set (field : CoreField) (cls : ClassRef)
  | installKernel
  | classOf (l : Literal)
  | describe (l : Literal)
  | singletonOf (l : Literal) (label : Option String)
  | walk (cls : ClassRef) (name : Symbol)
  | lookup (cls : ClassRef) (name : Symbol) (mode : Mode)
  | lookupAny (cls : ClassRef) (name : Symbol)
  | cache
  | clearCache

namespace Session

/-- The core classes that the program asks about. -/
def coreClasses (s : Session) : Except String CoreClasses := Notebook.find "core classes" s.core

def runCore (s : Session) : CoreCommand → Outcome
  | .bootstrap =>
    let (core, world) := s.world.bootstrap
    { s.within world with core := some core }.reply
      (.classes [core.basicObject, core.foreignObject])
  | .set field cls => do
    let core ← s.coreClasses
    { s with core := some (core.set field (← s.notebook.cls cls)) }.reply .done
  | .installKernel => do
    let (outcome, world) := s.world.installKernel (← s.coreClasses)
    return (outcome.map fun _ => .done, s.within world)
  | .classOf l => do
    let core ← s.coreClasses
    let (v, s) ← s.resolve l
    s.reply (.cls (core.classOf s.world.hierarchy v))
  | .describe l => do
    let core ← s.coreClasses
    let (v, s) ← s.resolve l
    s.reply (.text (core.describe s.world.hierarchy v))
  | .singletonOf l label => do
    let core ← s.coreClasses
    let (v, s) ← s.resolve l
    let (made, hierarchy) := core.singletonClassOf s.world.hierarchy v
    let s := s.within { s.world with hierarchy }
    match made, label with
    | .error f, _ => s.refuse f
    | .ok id, none => s.reply (.cls id)
    | .ok id, some label => (s.noting (·.bindClass label id)).reply (.cls id)
  | .walk cls name => do
    let (walk, world) := s.world.walk (← s.notebook.cls cls) name
    (s.within world).reply (.walk (walk.map fun _ => ()))
  | .lookup cls name mode => do
    let (found, world) := s.world.lookup (← s.notebook.cls cls) name mode
    (s.within world).reply (.lookup (found.map fun _ => ()))
  | .lookupAny cls name => do
    let (found, world) := s.world.lookupAny (← s.notebook.cls cls) name
    (s.within world).reply (.lookup (found.map fun _ => ()))
  | .cache =>
    let c := s.world.lookupCache
    s.reply (.cache c.hits c.misses c.invalidations c.size c.hitRate)
  | .clearCache =>
    (s.within { s.world with lookupCache := s.world.lookupCache.clear }).reply .done

end Session

end LateBinding
