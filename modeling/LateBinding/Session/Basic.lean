import LateBinding.Machine
import LateBinding.Session.Expr

namespace LateBinding

/-- What a command of a session answers. -/
inductive Reply where
  | done
  | cls (id : ClassId)
  | classes (ids : List ClassId)
  | truth (b : Bool)
  | number (n : Nat)
  | numbers (ns : List Nat)
  | text (s : String)
  | value (v : Value)
  | method (m : Method Unit)
  | found (m : Option (Method Unit))
  /-- The entry in a record's own table, and whether the table has one. -/
  | own (m : Option (Method Unit)) (defines : Bool)
  | record (id : ClassId) (r : Record Unit)
  /-- How many there are of something, and whether there is none. -/
  | size (n : Nat) (isEmpty : Bool)
  /-- The class and the singleton class of an object. -/
  | object (cls : ClassId) (singleton : Option ClassId)
  /-- A value to be looked at from all sides. -/
  | inspection (v : Value)
  | comparison (equal identical : Bool)
  | walk (w : Walk Unit)
  | lookup (l : Lookup Unit)
  | cache (hits misses invalidations size : Nat) (rate : Binary64)
  | site (id limit : Nat) (mode : Mode)
  | siteInfo (rate : Binary64) (text : String)
  | dispatched (d : Dispatched)
  | options (o : Options)
  /-- A method and what running it came to. -/
  | invoked (m : Method Unit) (outcome : Except Fault Value)
  | safepoints (isPaused : Bool) (pending polls slowPolls actionsRun pauses : Nat)
  /-- Whether another thread had to wait at a safepoint, and what it came to there. -/
  | crossing (blocked : Bool) (outcome : Except Fault Unit)

/-- A runtime and what the program that drives it keeps at hand. -/
structure Session where
  world : World
  /-- The core classes that the program asks about, once they are made. -/
  core : Option CoreClasses
  /-- The session can carry out calls. -/
  hasCalls : Bool
  /-- The labels of the pauses that the program holds, one for each pause. -/
  pauses : List String

/-- What a command comes to: a reply or a fault, and the session behind it. A command that refers to
a label under which nothing fitting is noted cannot be carried out, and yields this label. -/
abbrev Session.Outcome := Except String (Except Fault Reply × Session)

namespace Session

/-- The thread on which the program runs. -/
def mainThread : ThreadId := ⟨0⟩

def otherThread : ThreadId := ⟨1⟩

/-- How many steps a run is followed. No program that ends in reasonable time takes so many. -/
def patience : Nat := 1000000000000

def ofRuntime (options : Options) : Session :=
  let world := World.start options
  { world, core := some world.core, hasCalls := true, pauses := [] }

def ofHierarchy (options : Options) : Session :=
  { world := .void options, core := none, hasCalls := false, pauses := [] }

/-- The superclass of a class that is made without one. -/
def defaultSuperclass (s : Session) : Option ClassId :=
  if s.hasCalls then some s.world.core.object else none

def within (s : Session) (world : World) : Session := { s with world }

def notebook (s : Session) : Notebook := s.world.notebook

/-- The session with a changed notebook. -/
def noting (s : Session) (change : Notebook → Notebook) : Session :=
  s.within { s.world with notebook := change s.world.notebook }

/-- A reply that changes nothing. -/
def reply (s : Session) (r : Reply) : Outcome := .ok (.ok r, s)

/-- A fault that changes nothing. -/
def refuse (s : Session) (f : Fault) : Outcome := .ok (.error f, s)

/-- What the end of a run comes to; a run that has no end cannot be carried out. -/
def ofEnd (s : Session) (reply : Dispatched → Reply) : Machine.End → Outcome
  | .halted outcome world => .ok (outcome.map reply, s.within world)
  | .blocked _ => .error "a thread that waits for itself"
  | .unfinished => .error "a run without end"

/-- Follows a run on the program's own thread to its end. -/
def follow (s : Session) (reply : Dispatched → Reply) (m : Machine) : Outcome :=
  s.ofEnd reply (m.run patience)

end Session

end LateBinding
