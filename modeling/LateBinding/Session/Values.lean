import LateBinding.Session.Basic

namespace LateBinding

/-- A member of a foreign object as a program writes it down. -/
inductive MemberBehaviour where
  | value (l : Literal)
  | fixed (b : Member.Behaviour)

structure LabelledMember where
  hidden : Bool
  arity : Option Nat
  behaviour : MemberBehaviour

/-- A command about values. -/
inductive ValueCommand where
  | note (label : String) (l : Literal)
  | newObject (label : String) (cls : ClassRef)
  | newForeign (label typeName : String) (members : List (String × LabelledMember))
  /-- The class and the singleton class of an object. -/
  | object (l : Literal)
  | getVariable (of : Literal) (name : Symbol)
  | setVariable (of : Literal) (name : Symbol) (value : Literal)
  | inspect (l : Literal)
  | compare (a b : Literal)

/-- The member that is meant. -/
def LabelledMember.resolve (w : World) (m : LabelledMember) : Except String (Member × World) :=
  match m.behaviour with
  | .fixed b => .ok (⟨m.hidden, m.arity, b⟩, w)
  | .value l => do
    let (v, w) ← l.resolve w
    return (⟨m.hidden, m.arity, .value v⟩, w)

def LabelledMember.resolveAll (w : World) :
    List (String × LabelledMember) → Except String (List (String × Member) × World)
  | [] => .ok ([], w)
  | (name, m) :: ms => do
    let (m, w) ← m.resolve w
    let (ms, w) ← resolveAll w ms
    return ((name, m) :: ms, w)

namespace Session

/-- The value that a literal stands for. -/
def resolve (s : Session) (l : Literal) : Except String (Value × Session) := do
  let (v, world) ← l.resolve s.world
  return (v, s.within world)

def resolveAll (s : Session) (ls : List Literal) : Except String (List Value × Session) := do
  let (vs, world) ← Literal.resolveAll s.world ls
  return (vs, s.within world)

def runValue (s : Session) : ValueCommand → Outcome
  | .note label l => do
    let (v, s) ← s.resolve l
    (s.noting (·.bindValue label v)).reply .done
  | .newObject label cls => do
    let (v, world) := s.world.newObject (← s.notebook.cls cls)
    ((s.within world).noting (·.bindValue label v)).reply .done
  | .newForeign label typeName members => do
    let (members, world) ← LabelledMember.resolveAll s.world members
    let (v, world) := world.newForeign typeName (.ofMembers (.ofList members))
    ((s.within world).noting (·.bindValue label v)).reply .done
  | .object l => do
    let o ← LabelledEdit.object s.notebook l
    s.reply (.object o.declaredClass (s.world.hierarchy.singletonOf? o))
  | .getVariable of name => do
    let (v, s) ← s.resolve of
    match v with
    | .object o => s.reply (.value (s.world.getVariable o name))
    | _ => s.reply (.value .nil)
  | .setVariable of name value => do
    let (v, s) ← s.resolve of
    let (value, s) ← s.resolve value
    match v with
    | .object o => (s.within (s.world.setVariable o name value)).reply .done
    | _ => s.reply .done
  | .inspect l => do
    let (v, s) ← s.resolve l
    s.reply (.inspection v)
  | .compare a b => do
    let (a, s) ← s.resolve a
    let (b, s) ← s.resolve b
    s.reply (.comparison (a.equal b) (a.identical b))

end Session

end LateBinding
