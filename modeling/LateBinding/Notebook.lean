import LateBinding.Table
import LateBinding.Value

namespace LateBinding

/-- Labels and the log of a program. -/
structure Notebook where
  classes : Table String ClassId
  values : Table String Value
  sites : Table String Nat
  /-- The label that each object had first. -/
  objects : Table ObjectRef String
  log : List Value

namespace Notebook

def empty : Notebook := ⟨.empty, .empty, .empty, .empty, []⟩

instance : Inhabited Notebook := ⟨empty⟩

/-- Notes a class under a label, in place of what the label stood for. -/
def bindClass (n : Notebook) (label : String) (id : ClassId) : Notebook :=
  { n with classes := n.classes.insert label id }

def bindClasses (n : Notebook) (labels : List (String × ClassId)) : Notebook :=
  labels.foldl (fun n l => n.bindClass l.1 l.2) n

/-- Notes a value under a label, in place of what the label stood for. -/
def bindValue (n : Notebook) (label : String) (v : Value) : Notebook :=
  let n := { n with values := n.values.insert label v }
  match v with
  | .object o => { n with objects := n.objects.insertNew o label }
  | _ => n

/-- Notes a call site under a label, in place of what the label stood for. -/
def bindSite (n : Notebook) (label : String) (site : Nat) : Notebook :=
  { n with sites := n.sites.insert label site }

def write (n : Notebook) (v : Value) : Notebook := { n with log := n.log ++ [v] }

def clearLog (n : Notebook) : Notebook := { n with log := [] }

end Notebook

end LateBinding
