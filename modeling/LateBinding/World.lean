import LateBinding.CallSite
import LateBinding.Foreign
import LateBinding.Kernel
import LateBinding.Lookup.Cache
import LateBinding.Options
import LateBinding.Safepoint

namespace LateBinding

/-- The state of a runtime: everything that calls can look at or change. -/
structure World where
  options : Options
  hierarchy : Hierarchy Target
  core : CoreClasses
  lookupCache : LookupCache Target
  /-- Calls that looked for their method afresh. -/
  dispatches : Nat
  safepoints : Safepoints Script
  /-- The call sites by their numbers. -/
  sites : Array (CallSite Target)
  foreigns : Table ForeignRef ForeignObject
  /-- The instance variables of objects. -/
  instanceVariables : Table (ObjectRef × Symbol) Value
  /-- The methods that scripts have found and kept, by their numbers. -/
  kept : Array (Method Target)
  notebook : Notebook
  /-- The next number for something with an identity. -/
  serial : Nat

namespace World

/-- A world without any class. Its core classes have the numbers that making them will give. -/
def void (options : Options) : World :=
  { options
    hierarchy := .empty
    core := (CoreClasses.bootstrap (.empty : Hierarchy Target)).1
    lookupCache := .empty
    dispatches := 0
    safepoints := .idle
    sites := #[]
    foreigns := .empty
    instanceVariables := .empty
    kept := #[]
    notebook := .empty
    serial := 0 }

/-- Carries out a request to the hierarchy. The body of a method that it defines gets an identity. -/
def edit (w : World) (e : Edit Body) : Except Fault Edited × World :=
  let (outcome, hierarchy) := (e.map (Target.mk w.serial)).apply w.hierarchy
  (outcome, { w with hierarchy, serial := w.serial + 1 })

/-- Carries out requests one after the other, up to the first that is refused. -/
def editAll (w : World) : List (Edit Body) → Except Fault Unit × World
  | [] => (.ok (), w)
  | e :: es =>
    match w.edit e with
    | (.ok _, w) => w.editAll es
    | (.error f, w) => (.error f, w)

/-- Makes the core classes and notes them under their names. -/
def bootstrap (w : World) : CoreClasses × World :=
  let (core, hierarchy) := CoreClasses.bootstrap w.hierarchy
  (core, { w with hierarchy, notebook := w.notebook.bindClasses core.named })

/-- Defines the kernel methods. -/
def installKernel (w : World) (core : CoreClasses) : Except Fault Unit × World :=
  w.editAll (Kernel.definitions core)

/-- The world in which a program begins. -/
def start (options : Options) : World :=
  let (core, w) := (void options).bootstrap
  ({ w with core }.installKernel core).2

/-- A new text with an identity of its own. -/
def freshText (w : World) (text : String) : Value × World :=
  (.text ⟨w.serial, text⟩, { w with serial := w.serial + 1 })

def newObject (w : World) (cls : ClassId) : Value × World :=
  (.object ⟨w.serial, cls⟩, { w with serial := w.serial + 1 })

def newForeign (w : World) (typeName : String) (object : ForeignObject) : Value × World :=
  let f : ForeignRef := ⟨w.serial, typeName⟩
  (.foreign f, { w with foreigns := w.foreigns.insert f object, serial := w.serial + 1 })

def newSite (w : World) (mode : Mode) (limit : Nat) : Nat × World :=
  (w.sites.size, { w with sites := w.sites.push (.new w.sites.size mode limit) })

/-- What a foreign object answers. -/
def foreignObject (w : World) (f : ForeignRef) : ForeignObject := (w.foreigns.get? f).getD default

/-- The instance variable of an object; nil if it was never set. -/
def getVariable (w : World) (o : ObjectRef) (name : Symbol) : Value :=
  (w.instanceVariables.get? (o, name)).getD .nil

def setVariable (w : World) (o : ObjectRef) (name : Symbol) (v : Value) : World :=
  { w with instanceVariables := w.instanceVariables.insert (o, name) v }

/-- The class from which look-ups for a receiver begin. -/
def effectiveClass (w : World) (v : Value) : ClassId := w.core.effectiveClass w.hierarchy v

/-- Walks along the ancestors of a class, through the cache if the options say so. -/
def walk (w : World) (id : ClassId) (name : Symbol) : Walk Target × World :=
  if w.options.lookupCache then
    let (walk, lookupCache, hierarchy) := w.hierarchy.walkCached w.lookupCache id name
    (walk, { w with lookupCache, hierarchy })
  else
    let (walk, hierarchy) := w.hierarchy.walk id name
    (walk, { w with hierarchy })

/-- Looks up a method for a caller with a given mode. -/
def lookup (w : World) (id : ClassId) (name : Symbol) (mode : Mode) : Lookup Target × World :=
  let (walk, w) := w.walk id name
  (walk.lookup mode, w)

/-- Looks up a method, whoever may call it. -/
def lookupAny (w : World) (id : ClassId) (name : Symbol) : Lookup Target × World :=
  let (walk, w) := w.walk id name
  (walk.lookupAny, w)

/-- The method that a receiver has for a name, whoever may call it. -/
def findMethod (w : World) (receiver : Value) (name : Symbol) : Option (Method Target) × World :=
  let (found, w) := w.lookupAny (w.effectiveClass receiver) name
  (found.method?, w)

/-- Keeps the method that was found, if there is one. -/
def keep (w : World) (found : Option (Method Target)) : World :=
  { w with kept := w.kept ++ found.toArray }

/-- Answers a question of a script. -/
def answer (w : World) : (q : Query) → q.Answer × World
  | .findMethod receiver name =>
    let (found, w) := w.findMethod receiver name
    (found.map Method.info, w)
  | .keepMethod receiver name =>
    let (found, w) := w.findMethod receiver name
    (found.map fun m => (w.kept.size, m.info), w.keep found)
  | .effectiveClass receiver => (w.effectiveClass receiver, w)
  | .classOf v => (w.core.classOf w.hierarchy v, w)
  | .describe v => (w.core.describe w.hierarchy v, w)
  | .singletonClassOf v =>
    let (made, hierarchy) := w.core.singletonClassOf w.hierarchy v
    (made, { w with hierarchy })
  | .getVariable o name => (w.getVariable o name, w)
  | .setVariable o name v => ((), w.setVariable o name v)
  | .freshText text => w.freshText text
  | .note change =>
    let notebook := change w.notebook
    (notebook, { w with notebook })

end World

end LateBinding
