import LateBinding.Hierarchy.Ancestors

namespace LateBinding

namespace Hierarchy

variable {τ : Type}

/-- A record with a new stamp. -/
def stamp (h : Hierarchy τ) (generation : Nat) (id : ClassId) : Hierarchy τ :=
  h.modify id fun r => { r with stamp := generation }

/-- A record with a new stamp if it has the changed one among its ancestors. -/
def stampIfBelow (owner : ClassId) (generation : Nat) (h : Hierarchy τ) (id : ClassId) :
    Hierarchy τ :=
  if id = owner then h.stamp generation id
  else
    let (below, h) := h.isAncestor id owner
    if below then h.stamp generation id else h

/-- Announces a change of a method table to the records that have the changed one among their ancestors. -/
def publishTable (h : Hierarchy τ) (owner : ClassId) (generation : Nat) : Hierarchy τ :=
  h.ids.foldl (stampIfBelow owner generation) { h with generation }

/-- Announces a change of the graph to all records, and begins a new epoch. -/
def publishGraph (h : Hierarchy τ) : Hierarchy τ :=
  let generation := h.generation + 1
  { h with
    epoch := h.epoch + 1
    generation
    records := h.records.map fun r => { r with stamp := generation } }

/-- Puts an entry, which carries the next generation, into the table of its owner. -/
def write (h : Hierarchy τ) (m : Method τ) : Hierarchy τ :=
  (h.modify m.owner fun r => r.withMethod m).publishTable m.owner m.generation

/-- Defines a method, or redefines it. Like every change, it answers the hierarchy also when it is refused,
because deciding about a change may compute lists of ancestors. -/
def define (h : Hierarchy τ) (owner : ClassId) (name : Symbol) (visibility : Visibility)
    (target : τ) (flags : MethodFlags) : Except Fault (Method τ) × Hierarchy τ :=
  match h.get? owner with
  | none => (.error (.unknownClass owner), h)
  | some _ =>
    let m := Method.new name owner visibility target flags (h.generation + 1)
    (.ok m, h.write m)

/-- Removes the owner's own entry for a name, be it a method or a tombstone. -/
def remove (h : Hierarchy τ) (owner : ClassId) (name : Symbol) :
    Except Fault Unit × Hierarchy τ :=
  match h.get? owner with
  | none => (.error (.unknownClass owner), h)
  | some r =>
    if r.defines name then
      let h' := h.modify owner fun r => r.withoutMethod name
      (.ok (), h'.publishTable owner (h.generation + 1))
    else (.error (.notDefined name r.name), h)

/-- Writes an entry that is made from the method that the owner has for a name. -/
def revise (h : Hierarchy τ) (owner : ClassId) (name : Symbol)
    (entry : Method τ → Nat → Method τ) : Except Fault Unit × Hierarchy τ :=
  match h.get? owner with
  | none => (.error (.unknownClass owner), h)
  | some r =>
    match h.resolveDefined? owner name with
    | (none, h) => (.error (.undefinedIn name r.name), h)
    | (some m, h) => (.ok (), h.write (entry m (h.generation + 1)))

/-- Makes the owner behave as if it neither had nor inherited a method. -/
def undefine (h : Hierarchy τ) (owner : ClassId) (name : Symbol) :
    Except Fault Unit × Hierarchy τ :=
  h.revise owner name fun _ generation => .tombstone name owner generation

/-- Gives a method that the owner has a second name. -/
def addAlias (h : Hierarchy τ) (owner : ClassId) (new old : Symbol) :
    Except Fault Unit × Hierarchy τ :=
  h.revise owner old fun m generation => m.aliased new owner generation

/-- Gives a method that the owner has another visibility there. -/
def setVisibility (h : Hierarchy τ) (owner : ClassId) (name : Symbol) (visibility : Visibility) :
    Except Fault Unit × Hierarchy τ :=
  h.revise owner name fun m generation => m.withVisibility owner visibility generation

/-- Includes a module. Including what is among the ancestors already changes nothing. -/
def addInclude (h : Hierarchy τ) (target module : ClassId) : Except Fault Unit × Hierarchy τ :=
  match h.get? target, h.get? module with
  | none, _ => (.error (.unknownClass target), h)
  | some _, none => (.error (.unknownClass module), h)
  | some _, some m =>
    if m.isModule then
      match h.isAncestor target module with
      | (true, h) => (.ok (), h)
      | (false, h) =>
        match h.wouldCycle target module with
        | (true, h) => (.error .cyclicInclude, h)
        | (false, h) =>
          let h := h.modify target fun r => { r with includes := r.includes ++ [module] }
          (.ok (), h.publishGraph)
    else (.error (.notAModule m.name), h)

def setSuperclass (h : Hierarchy τ) (cls superclass : ClassId) :
    Except Fault Unit × Hierarchy τ :=
  match h.get? cls, h.get? superclass with
  | none, _ => (.error (.unknownClass cls), h)
  | some _, none => (.error (.unknownClass superclass), h)
  | some r, some s =>
    if r.isModule || s.isModule then (.error (.notAClass s.name), h)
    else
      match h.wouldCycle cls superclass with
      | (true, h) => (.error (.cyclicSuperclass s.name), h)
      | (false, h) =>
        let h := h.modify cls fun r => { r with superclass := some superclass }
        (.ok (), h.publishGraph)

theorem write_eq_publishTable (h : Hierarchy τ) (m : Method τ) :
    h.write m = (h.modify m.owner fun r => r.withMethod m).publishTable m.owner m.generation := rfl

/-- Announcing a change of the graph stamps every record with the new generation. -/
theorem get?_publishGraph (h : Hierarchy τ) (id : ClassId) :
    h.publishGraph.get? id = (h.get? id).map fun r => { r with stamp := h.generation + 1 } := by
  simp [get?, publishGraph]

end Hierarchy

end LateBinding
