import LateBinding.Hierarchy.Change

namespace LateBinding

/-- A request to a hierarchy whose methods have targets in `τ`. -/
inductive Edit (τ : Type) where
  | create (name : String) (superclass : Option ClassId) (flags : ClassFlags)
  | attachToObject (o : ObjectRef) (name : String)
  | attachToModule (module superclass : ClassId)
  | define (owner : ClassId) (name : Symbol) (visibility : Visibility) (target : τ)
    (flags : MethodFlags)
  | remove (owner : ClassId) (name : Symbol)
  | undefine (owner : ClassId) (name : Symbol)
  | addAlias (owner : ClassId) (new old : Symbol)
  | setVisibility (owner : ClassId) (name : Symbol) (visibility : Visibility)
  | addInclude (target module : ClassId)
  | setSuperclass (cls superclass : ClassId)
  | ancestors (id : ClassId)
  | isAncestor (descendant ancestor : ClassId)
  /-- Asks only that a record with the number exists. -/
  | record (id : ClassId)

/-- What a request that is not refused comes to. -/
inductive Edited where
  | done
  | made (id : ClassId)
  | entry (m : Method Unit)
  | list (ids : List ClassId)
  | truth (b : Bool)
deriving DecidableEq

namespace Edit

variable {τ σ : Type}

/-- The same request for another type of targets. -/
def map (f : τ → σ) : Edit τ → Edit σ
  | create name superclass flags => .create name superclass flags
  | attachToObject o name => .attachToObject o name
  | attachToModule module superclass => .attachToModule module superclass
  | define owner name visibility target flags => .define owner name visibility (f target) flags
  | remove owner name => .remove owner name
  | undefine owner name => .undefine owner name
  | addAlias owner new old => .addAlias owner new old
  | setVisibility owner name visibility => .setVisibility owner name visibility
  | addInclude target module => .addInclude target module
  | setSuperclass cls superclass => .setSuperclass cls superclass
  | ancestors id => .ancestors id
  | isAncestor descendant ancestor => .isAncestor descendant ancestor
  | record id => .record id

/-- The outcome of a change that has no result of its own. -/
def finished (outcome : Except Fault Unit × Hierarchy τ) : Except Fault Edited × Hierarchy τ :=
  (outcome.1.map fun _ => .done, outcome.2)

def apply (h : Hierarchy τ) : Edit τ → Except Fault Edited × Hierarchy τ
  | create name superclass flags =>
    let (id, h) := h.create name superclass flags
    (.ok (.made id), h)
  | attachToObject o name =>
    let (id, h) := h.attachToObject o name
    (.ok (.made id), h)
  | attachToModule module superclass =>
    let (made, h) := h.attachToModule module superclass
    (made.map .made, h)
  | define owner name visibility target flags =>
    let (defined, h) := h.define owner name visibility target flags
    (defined.map fun m => .entry m.info, h)
  | remove owner name => finished (h.remove owner name)
  | undefine owner name => finished (h.undefine owner name)
  | addAlias owner new old => finished (h.addAlias owner new old)
  | setVisibility owner name visibility => finished (h.setVisibility owner name visibility)
  | addInclude target module => finished (h.addInclude target module)
  | setSuperclass cls superclass => finished (h.setSuperclass cls superclass)
  | ancestors id =>
    let (list, h) := h.ancestors id
    (.ok (.list list), h)
  | isAncestor descendant ancestor =>
    let (b, h) := h.isAncestor descendant ancestor
    (.ok (.truth b), h)
  | record id => ((h.record id).map fun _ => .done, h)

/-- The record that a request makes, if any, has no superclass or one that exists. A request for a
singleton class that exists already makes none, whatever superclass it names. -/
def NamesKnownSuperclass (h : Hierarchy τ) : Edit τ → Prop
  | create _ superclass _ => ∀ id ∈ superclass, h.Knows id
  | attachToObject o _ => h.singletonOf? o = none → h.Knows o.declaredClass
  | attachToModule module superclass =>
    (h.get? module).any (fun r => r.metaclass.isNone) = true → h.Knows superclass
  | _ => True

instance (h : Hierarchy τ) (e : Edit τ) : Decidable (e.NamesKnownSuperclass h) := by
  cases e <;> unfold NamesKnownSuperclass <;> infer_instance

end Edit

/-- The hierarchy after a list of requests. -/
def Hierarchy.run {τ : Type} (h : Hierarchy τ) (edits : List (Edit τ)) : Hierarchy τ :=
  edits.foldl (fun h e => (e.apply h).2) h

theorem Hierarchy.run_append {τ : Type} (h : Hierarchy τ) (es fs : List (Edit τ)) :
    h.run (es ++ fs) = (h.run es).run fs :=
  List.foldl_append

end LateBinding
