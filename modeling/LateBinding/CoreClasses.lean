import LateBinding.Hierarchy.Change

namespace LateBinding

/-- The records that the runtime itself refers to. -/
structure CoreClasses where
  basicObject : ClassId
  object : ClassId
  kernel : ClassId
  module : ClassId
  cls : ClassId
  nilClass : ClassId
  trueClass : ClassId
  falseClass : ClassId
  integer : ClassId
  float : ClassId
  symbol : ClassId
  string : ClassId
  foreignObject : ClassId
deriving DecidableEq, Inhabited

namespace CoreClasses

variable {τ : Type}

/-- The names of the core classes and their records, in the order in which they are made. -/
def named (core : CoreClasses) : List (String × ClassId) :=
  [("BasicObject", core.basicObject), ("Object", core.object), ("Kernel", core.kernel),
    ("Module", core.module), ("Class", core.cls), ("NilClass", core.nilClass),
    ("TrueClass", core.trueClass), ("FalseClass", core.falseClass), ("Integer", core.integer),
    ("Float", core.float), ("Symbol", core.symbol), ("String", core.string),
    ("ForeignObject", core.foreignObject)]

/-- Makes the core classes. The module Kernel is new when Object includes it, so this is never
refused. -/
def bootstrap (h : Hierarchy τ) : CoreClasses × Hierarchy τ :=
  let (basicObject, h) := h.createClass "BasicObject" none
  let (object, h) := h.createClass "Object" (some basicObject)
  let (kernel, h) := h.createModule "Kernel"
  let h := (h.addInclude object kernel).2
  let (module, h) := h.createClass "Module" (some object)
  let (cls, h) := h.createClass "Class" (some module)
  let immediate (h : Hierarchy τ) (name : String) :=
    h.create name (some object) { isImmediate := true }
  let (nilClass, h) := immediate h "NilClass"
  let (trueClass, h) := immediate h "TrueClass"
  let (falseClass, h) := immediate h "FalseClass"
  let (integer, h) := immediate h "Integer"
  let (float, h) := immediate h "Float"
  let (symbol, h) := immediate h "Symbol"
  let (string, h) := immediate h "String"
  let (foreignObject, h) := h.create "ForeignObject" (some object) { isForeign := true }
  ({ basicObject, object, kernel, module, cls, nilClass, trueClass, falseClass, integer, float,
     symbol, string, foreignObject }, h)

/-- The class of a value, singleton classes aside. -/
def classOf (core : CoreClasses) (h : Hierarchy τ) : Value → ClassId
  | .nil => core.nilClass
  | .bool b => if b then core.trueClass else core.falseClass
  | .integer _ => core.integer
  | .float _ => core.float
  | .symbol _ => core.symbol
  | .text _ => core.string
  | .module id => if (h.get? id).any Record.isModule then core.module else core.cls
  | .object o => o.declaredClass
  | .foreign _ => core.foreignObject

/-- A value in words, for messages. -/
def describe (core : CoreClasses) (h : Hierarchy τ) : Value → String
  | .nil => "nil"
  | .bool b => if b then "true" else "false"
  | .module id =>
    (if core.classOf h (.module id) = core.module then "module " else "class ") ++ h.nameOf id
  | .foreign f => "foreign " ++ f.typeName
  | v => "an instance of " ++ h.nameOf (core.classOf h v)

/-- The singleton class of a class or module, made on the first request. That of a class lies below
the singleton class of its superclass, which is made first, so that methods of a class as a value
are inherited along the superclasses. The chain of superclasses is followed to a given depth. -/
def metaclassWithin (core : CoreClasses) :
    Nat → Hierarchy τ → ClassId → Option (Except Fault ClassId × Hierarchy τ)
  | 0, _, _ => none
  | depth + 1, h, id =>
    match h.get? id with
    | none => some (.error (.unknownClass id), h)
    | some r =>
      match r.metaclass with
      | some existing => some (.ok existing, h)
      | none =>
        if r.isModule then some (h.attachToModule id core.module)
        else
          match r.superclass with
          | none => some (h.attachToModule id core.cls)
          | some parent => do
            let (above, h) ← core.metaclassWithin depth h parent
            match above with
            | .error fault => return (.error fault, h)
            | .ok above => return h.attachToModule id above

/-- The singleton class of a class or module, made on the first request. -/
def metaclassOf (core : CoreClasses) (h : Hierarchy τ) (id : ClassId) :
    Except Fault ClassId × Hierarchy τ :=
  (core.metaclassWithin (h.size + 1) h id).getD (.error (.unknownClass id), h)

/-- The singleton class of a value, made on the first request. -/
def singletonClassOf (core : CoreClasses) (h : Hierarchy τ) (v : Value) :
    Except Fault ClassId × Hierarchy τ :=
  let id := core.classOf h v
  match h.get? id with
  | none => (.error (.unknownClass id), h)
  | some r =>
    if r.forbidsSingletons then (.error (.singletonForbidden r.name), h)
    else
      match v with
      | .object o =>
        let (id, h) := h.attachToObject o s!"#<Class:#<{r.name}>>"
        (.ok id, h)
      | .module id => core.metaclassOf h id
      | _ => (.error (.singletonPlaceless r.name), h)

/-- The nearest singleton class along a chain of superclasses, which is followed to a given depth.
A module has none but its own, and neither has a number not in use. -/
def nearestMetaclassWithin (h : Hierarchy τ) : Nat → ClassId → Option (Option ClassId)
  | 0, _ => none
  | depth + 1, id =>
    match h.get? id with
    | none => some none
    | some r =>
      match r.metaclass, r.isModule, r.superclass with
      | some metaclass, _, _ => some (some metaclass)
      | none, true, _ => some none
      | none, false, none => some none
      | none, false, some parent => nearestMetaclassWithin h depth parent

/-- The nearest singleton class along the superclasses of a class. -/
def nearestMetaclass (h : Hierarchy τ) (id : ClassId) : Option ClassId :=
  ((nearestMetaclassWithin h (h.size + 1) id).getD none)

/-- The class from which look-ups for a receiver begin: its singleton class if it has one. A class
without one begins at that of its nearest superclass. -/
def effectiveClass (core : CoreClasses) (h : Hierarchy τ) (v : Value) : ClassId :=
  match v with
  | .object o => (h.singletonOf? o).getD o.declaredClass
  | .module id => (nearestMetaclass h id).getD (core.classOf h v)
  | _ => core.classOf h v

end CoreClasses

end LateBinding
