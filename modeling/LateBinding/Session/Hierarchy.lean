import LateBinding.Session.Basic

namespace LateBinding

/-- A command about the hierarchy. -/
inductive HierarchyCommand where
  | edit (e : LabelledEdit)
  | define (owner : ClassRef) (name : Symbol) (visibility : Visibility) (flags : MethodFlags)
    (body : Expr)
  | nameOf (cls : ClassRef)
  | size
  | stamps
  /-- The entry for a name in a record's own table. -/
  | own (cls : ClassRef) (name : Symbol)
  /-- Whether two entries share their target. -/
  | sameTarget (cls : ClassRef) (name : Symbol) (cls' : ClassRef) (name' : Symbol)

/-- What a request to the hierarchy answers. -/
def Reply.ofEdited : Edited → Reply
  | .done => .done
  | .made id => .cls id
  | .entry m => .method m
  | .list ids => .classes ids
  | .truth b => .truth b

/-- A record without the targets of its methods. -/
def Record.view {τ : Type} (r : Record τ) : Record Unit := { r with methods := .empty }

namespace Session

def carryOut (s : Session) (e : Edit Body) : Except Fault Edited × Session :=
  let (outcome, world) := s.world.edit e
  (outcome, s.within world)

/-- Carries out a request with labels, and shows the record that was asked for. -/
def edit (s : Session) (e : LabelledEdit) : Outcome := do
  let request ← e.resolve s.notebook s.defaultSuperclass
  match s.carryOut request with
  | (.error f, s) => s.refuse f
  | (.ok made, s) =>
    let s := s.noting (e.note made)
    match request with
    | .record id =>
      match s.world.hierarchy.get? id with
      | some r => s.reply (.record id r.view)
      | none => s.refuse (.unknownClass id)
    | _ => s.reply (.ofEdited made)

/-- The body of a method that is to be defined, or run by itself. -/
def bodyOf (s : Session) (e : Expr) : Except String (Body × Session) :=
  match e.literal? with
  | some l => do
    let (v, world) ← l.resolve s.world
    return (.constant v, s.within world)
  | none => .ok (e.body s.defaultSuperclass, s)

/-- The number of the target of an entry in a record's own table. -/
def targetOf? (s : Session) (id : ClassId) (name : Symbol) : Option Nat :=
  (((s.world.hierarchy.get? id).bind fun r => r.own? name).bind Method.target).map Target.serial

def runHierarchy (s : Session) : HierarchyCommand → Outcome
  | .edit e => s.edit e
  | .define owner name visibility flags body => do
    let id ← s.notebook.cls owner
    let (body, s) ← s.bodyOf body
    let (outcome, s) := s.carryOut (.define id name visibility body flags)
    return (outcome.map .ofEdited, s)
  | .nameOf cls => do s.reply (.text (s.world.hierarchy.nameOf (← s.notebook.cls cls)))
  | .size => s.reply (.size s.world.hierarchy.size s.world.hierarchy.isEmpty)
  | .stamps => s.reply (.numbers s.world.hierarchy.stamps)
  | .own cls name => do
    match s.world.hierarchy.record (← s.notebook.cls cls) with
    | .ok r => s.reply (.own ((r.own? name).map Method.info) (r.defines name))
    | .error f => s.refuse f
  | .sameTarget cls name cls' name' => do
    let target := s.targetOf? (← s.notebook.cls cls) name
    let target' := s.targetOf? (← s.notebook.cls cls') name'
    s.reply (.truth (target.isSome && target == target'))

end Session

end LateBinding
