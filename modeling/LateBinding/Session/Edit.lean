import LateBinding.Session.Literal

namespace LateBinding

/-- A request to the hierarchy as a program writes it down. Definitions of methods are not among
them, since those have bodies. -/
inductive LabelledEdit where
  /-- A class without flags lies below the default superclass unless it is to be a root. -/
  | makeClass (name : String) (superclass : Option ClassRef) (isRoot : Bool)
    (flags : Option ClassFlags) (label : String)
  | makeModule (name : String) (label : String)
  | attachToModule (module superclass : ClassRef) (label : Option String)
  | attachToObject (of : Literal) (name : String) (label : String)
  | remove (owner : ClassRef) (name : Symbol)
  | undefine (owner : ClassRef) (name : Symbol)
  | addAlias (owner : ClassRef) (new old : Symbol)
  | setVisibility (owner : ClassRef) (name : Symbol) (visibility : Visibility)
  | addInclude (target module : ClassRef)
  | setSuperclass (cls superclass : ClassRef)
  | ancestors (cls : ClassRef)
  | isAncestor (cls ancestor : ClassRef)
  | record (cls : ClassRef)

namespace LabelledEdit

/-- The label under which a record that is made is noted. -/
def label? : LabelledEdit → Option String
  | makeClass _ _ _ _ label | makeModule _ label | attachToObject _ _ label => some label
  | attachToModule _ _ label => label
  | _ => none

/-- The object that a literal stands for, or else a label. -/
def object (n : Notebook) : Literal → Except String ObjectRef
  | .noted label => do
    match ← n.value label with
    | .object o => return o
    | _ => .error label
  | _ => .error ""

/-- The superclass that a reference stands for, if there is a reference. -/
def parent (n : Notebook) : Option ClassRef → Except String (Option ClassId)
  | none => .ok none
  | some c => do return some (← n.cls c)

/-- The request that is meant, or a label under which nothing fitting is noted. -/
def resolve {τ : Type} (n : Notebook) (defaultSuperclass : Option ClassId) :
    LabelledEdit → Except String (Edit τ)
  | makeClass name superclass isRoot flags _ => do
    let given ← parent n superclass
    match flags with
    | some flags => return .create name given flags
    | none => return .create name (if isRoot then given else given.or defaultSuperclass) {}
  | makeModule name _ => return .create name none { isModule := true }
  | attachToModule module superclass _ =>
    return .attachToModule (← n.cls module) (← n.cls superclass)
  | attachToObject of name _ => return .attachToObject (← object n of) name
  | remove owner name => return .remove (← n.cls owner) name
  | undefine owner name => return .undefine (← n.cls owner) name
  | addAlias owner new old => return .addAlias (← n.cls owner) new old
  | setVisibility owner name visibility =>
    return .setVisibility (← n.cls owner) name visibility
  | addInclude target module => return .addInclude (← n.cls target) (← n.cls module)
  | setSuperclass cls superclass => return .setSuperclass (← n.cls cls) (← n.cls superclass)
  | ancestors cls => return .ancestors (← n.cls cls)
  | isAncestor cls ancestor => return .isAncestor (← n.cls cls) (← n.cls ancestor)
  | record cls => return .record (← n.cls cls)

/-- Notes what a request has made. -/
def note (e : LabelledEdit) (made : Edited) (n : Notebook) : Notebook :=
  match e.label?, made with
  | some label, .made id => n.bindClass label id
  | _, _ => n

/-- Makes the request when the script gets there, and goes on unless it is refused. -/
def script (e : LabelledEdit) (defaultSuperclass : Option ClassId) (k : Script) : Script :=
  .withNoted (fun n => e.resolve n defaultSuperclass) fun edit =>
    .change edit fun made => .ask (.note (e.note made)) fun _ => k

end LabelledEdit

end LateBinding
