import LateBinding.Fault
import LateBinding.Hierarchy.Record

namespace LateBinding

/-- All classes, modules and singleton classes of a runtime, by their numbers. None is ever removed. The two
counters that date changes stand for numbers of 64 bits, so that the results are about fewer than `2 ^ 64`
changes. -/
structure Hierarchy (τ : Type) where
  records : Array (Record τ)
  /-- The number of the last change of a method table or of the graph. -/
  generation : Nat
  /-- The number of the last change of the graph. -/
  epoch : Nat
  /-- The singleton classes of objects; those of classes and modules are in their records. -/
  objectSingletons : Table ObjectRef ClassId

namespace Hierarchy

variable {τ : Type}

def empty : Hierarchy τ :=
  { records := #[], generation := 1, epoch := 1, objectSingletons := .empty }

instance : Inhabited (Hierarchy τ) := ⟨empty⟩

def size (h : Hierarchy τ) : Nat := h.records.size

def isEmpty (h : Hierarchy τ) : Bool := h.size == 0

/-- All numbers of records, oldest first. -/
def ids (h : Hierarchy τ) : List ClassId := (List.range h.size).map ClassId.mk

def get? (h : Hierarchy τ) (id : ClassId) : Option (Record τ) := h.records[id.index]?

/-- The record with a number that is expected to be in use. -/
def record (h : Hierarchy τ) (id : ClassId) : Except Fault (Record τ) :=
  match h.get? id with
  | some r => .ok r
  | none => .error (.unknownClass id)

/-- The number is that of a record. -/
def Knows (h : Hierarchy τ) (id : ClassId) : Prop := id.index < h.size

instance (h : Hierarchy τ) (id : ClassId) : Decidable (h.Knows id) :=
  inferInstanceAs (Decidable (_ < _))

/-- The name of a record, or a placeholder for a number not in use. -/
def nameOf (h : Hierarchy τ) (id : ClassId) : String :=
  match h.get? id with
  | some r => r.name
  | none => s!"#<Class:{id.index}>"

def stampOf? (h : Hierarchy τ) (id : ClassId) : Option Nat := (h.get? id).map Record.stamp

/-- The stamps of all records, oldest first. -/
def stamps (h : Hierarchy τ) : List Nat := h.records.toList.map Record.stamp

/-- The singleton class of an object, if it has one. -/
def singletonOf? (h : Hierarchy τ) (o : ObjectRef) : Option ClassId := h.objectSingletons.get? o

/-- The hierarchy with one record changed; a number not in use changes nothing. -/
def modify (h : Hierarchy τ) (id : ClassId) (f : Record τ → Record τ) : Hierarchy τ :=
  { h with records := h.records.modify id.index f }

/-- A new record at the end, stamped with the current generation. The counters stay as they are, although
records that were made below the number of the new one come to build on it. -/
def create (h : Hierarchy τ) (name : String) (superclass : Option ClassId) (flags : ClassFlags) :
    ClassId × Hierarchy τ :=
  (⟨h.size⟩, { h with records := h.records.push (.new name flags superclass h.generation) })

/-- A new class. The superclass may be a number that no record has yet. -/
def createClass (h : Hierarchy τ) (name : String) (superclass : Option ClassId) :
    ClassId × Hierarchy τ :=
  h.create name superclass {}

def createModule (h : Hierarchy τ) (name : String) : ClassId × Hierarchy τ :=
  h.create name none { isModule := true }

/-- The singleton class of an object, made on the first request below the class of the object. -/
def attachToObject (h : Hierarchy τ) (o : ObjectRef) (name : String) : ClassId × Hierarchy τ :=
  match h.singletonOf? o with
  | some id => (id, h)
  | none =>
    let (id, h) := h.create name (some o.declaredClass) { isSingleton := true }
    (id, { h with objectSingletons := h.objectSingletons.insert o id })

/-- The singleton class of a class or module, made on the first request below a given class. -/
def attachToModule (h : Hierarchy τ) (module superclass : ClassId) :
    Except Fault ClassId × Hierarchy τ :=
  match h.get? module with
  | none => (.error (.unknownClass module), h)
  | some r =>
    match r.metaclass with
    | some id => (.ok id, h)
    | none =>
      let (id, h) := h.create s!"#<Class:{r.name}>" (some superclass) { isSingleton := true }
      (.ok id, h.modify module fun r => { r with metaclass := some id })

theorem get?_eq_some_iff_knows {h : Hierarchy τ} {id : ClassId} :
    (h.get? id).isSome ↔ h.Knows id := by
  simp [get?, Knows, size]

theorem get?_modify (h : Hierarchy τ) (id x : ClassId) (f : Record τ → Record τ) :
    (h.modify id f).get? x = if id = x then (h.get? x).map f else h.get? x := by
  obtain ⟨i⟩ := id
  obtain ⟨j⟩ := x
  simp [get?, modify, Array.getElem?_modify]

@[simp] theorem size_modify (h : Hierarchy τ) (id : ClassId) (f : Record τ → Record τ) :
    (h.modify id f).size = h.size := by
  simp [size, modify]

/-- A new record leaves every record as it was. -/
theorem get?_create (h : Hierarchy τ) (name : String) (superclass : Option ClassId)
    (flags : ClassFlags) (x : ClassId) :
    (h.create name superclass flags).2.get? x =
      if x = ⟨h.size⟩ then some (.new name flags superclass h.generation) else h.get? x := by
  obtain ⟨i⟩ := x
  simp only [get?, create, size, Array.getElem?_push, ClassId.mk.injEq]

end Hierarchy

end LateBinding
