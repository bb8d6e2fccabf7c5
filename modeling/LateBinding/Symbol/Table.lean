import LateBinding.Table

namespace LateBinding

/-- The number that a symbol table gives to a text. -/
structure SymbolIndex where
  raw : Nat
deriving DecidableEq, Inhabited

/-- The texts interned so far, with their numbers. -/
structure SymbolTable where
  indices : Table String SymbolIndex
  /-- The texts in the order in which they were numbered. -/
  names : List String

namespace SymbolTable

/-- How many numbers there are. -/
def capacity : Nat := 4294967296

def empty : SymbolTable := ⟨.empty, []⟩

instance : Inhabited SymbolTable := ⟨empty⟩

def size (t : SymbolTable) : Nat := t.names.length

def isEmpty (t : SymbolTable) : Bool := t.size == 0

/-- The number of a text, and the table in which it has this number. A new text takes the next one. -/
def intern (t : SymbolTable) (text : String) : SymbolIndex × SymbolTable :=
  match t.indices.get? text with
  | some s => (s, t)
  | none =>
    let s : SymbolIndex := ⟨t.size % capacity⟩
    (s, ⟨t.indices.insert text s, t.names ++ [text]⟩)

/-- The text with a number, or a placeholder for a number that the table has not given out. -/
def name (t : SymbolTable) (s : SymbolIndex) : String :=
  t.names.getD s.raw s!"<symbol#{s.raw}>"

/-- A text that has a number keeps it, and nothing changes. -/
theorem intern_of_get?_eq_some {t : SymbolTable} {text : String} {s : SymbolIndex}
    (hold : t.indices.get? text = some s) : t.intern text = (s, t) := by
  rw [intern, hold]

theorem intern_of_get?_eq_none {t : SymbolTable} {text : String}
    (hnew : t.indices.get? text = none) :
    t.intern text =
      (⟨t.size % capacity⟩,
        ⟨t.indices.insert text ⟨t.size % capacity⟩, t.names ++ [text]⟩) := by
  rw [intern, hnew]

/-- A table never loses a text. -/
theorem names_prefix_intern (t : SymbolTable) (text : String) :
    t.names <+: (t.intern text).2.names := by
  rw [intern]
  split
  · exact List.prefix_rfl
  · exact List.prefix_append _ _

theorem name_of_size_le {t : SymbolTable} {s : SymbolIndex} (hsize : t.size ≤ s.raw) :
    t.name s = s!"<symbol#{s.raw}>" := by
  rw [name, List.getD_eq_getElem?_getD, List.getElem?_eq_none hsize, Option.getD_none]

end SymbolTable

end LateBinding
