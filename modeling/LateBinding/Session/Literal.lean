import LateBinding.World

namespace LateBinding

/-- A class as a program refers to it. -/
inductive ClassRef where
  | label (name : String)
  | number (id : ClassId)
deriving DecidableEq

/-- A value as a program writes it down. -/
inductive Literal where
  | nil
  | bool (b : Bool)
  | integer (i : Int64)
  | text (s : String)
  | symbol (s : Symbol)
  | float (x : Binary64)
  | module (c : ClassRef)
  /-- The value noted under a label. -/
  | noted (label : String)
deriving DecidableEq

/-- What is noted under a label, or else the label. -/
def Notebook.find {α : Type} (label : String) : Option α → Except String α
  | some a => .ok a
  | none => .error label

/-- The class that a reference stands for; a number stands for itself, in use or not. If nothing is
noted under a label, the label is returned. -/
def Notebook.cls (n : Notebook) : ClassRef → Except String ClassId
  | .label name => find name (n.classes.get? name)
  | .number id => .ok id

/-- The value noted under a label, or else the label. -/
def Notebook.value (n : Notebook) (label : String) : Except String Value :=
  find label (n.values.get? label)

/-- The call site noted under a label, or else the label. -/
def Notebook.site (n : Notebook) (label : String) : Except String Nat :=
  find label (n.sites.get? label)

/-- Goes on with what the notebook holds when the script gets there. A script that refers to a label
under which nothing is noted ends with a name fault. -/
def Script.withNoted {α : Type} (find : Notebook → Except String α) (k : α → Script) : Script :=
  .ask (.note id) fun n =>
    match find n with
    | .ok a => k a
    | .error label => .fail (.raisedName ⟨label⟩ s!"nothing is noted under '{label}'")

namespace Literal

/-- The value that a literal stands for, or a label under which nothing is noted. -/
def resolve (w : World) : Literal → Except String (Value × World)
  | nil => .ok (.nil, w)
  | bool b => .ok (.bool b, w)
  | integer i => .ok (.integer i, w)
  | text s => .ok (w.freshText s)
  | symbol s => .ok (.symbol s, w)
  | float x => .ok (.float x, w)
  | module c => do return (.module (← w.notebook.cls c), w)
  | noted label => do return (← w.notebook.value label, w)

/-- The values that literals stand for, or a label under which nothing is noted. -/
def resolveAll (w : World) : List Literal → Except String (List Value × World)
  | [] => .ok ([], w)
  | l :: ls => do
    let (v, w) ← l.resolve w
    let (vs, w) ← resolveAll w ls
    return (v :: vs, w)

/-- Goes on with the value that a literal stands for when the script gets there. -/
def script (l : Literal) (k : Value → Script) : Script :=
  match l with
  | nil => k .nil
  | bool b => k (.bool b)
  | integer i => k (.integer i)
  | text s => .ask (.freshText s) k
  | symbol s => k (.symbol s)
  | float x => k (.float x)
  | module c => .withNoted (fun n => n.cls c) fun id => k (.module id)
  | noted label => .withNoted (fun n => n.value label) k

/-- Goes on with the values that literals stand for, from left to right. -/
def scriptAll : List Literal → (List Value → Script) → Script
  | [], k => k []
  | l :: ls, k => l.script fun v => scriptAll ls fun vs => k (v :: vs)

end Literal

end LateBinding
