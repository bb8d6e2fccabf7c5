namespace LateBinding

universe u v

/-- The entries of a table, in the order in which their keys were first inserted. -/
structure Table (κ : Type u) (ν : Type v) where
  entries : List (κ × ν)
  /-- No key occurs twice. -/
  keys_nodup : (entries.map Prod.fst).Nodup

namespace Table

variable {κ : Type u} {ν : Type v}

def empty : Table κ ν := ⟨[], List.nodup_nil⟩

instance : Inhabited (Table κ ν) := ⟨empty⟩

/-- The keys, oldest first. -/
def keys (t : Table κ ν) : List κ := t.entries.map Prod.fst

/-- The number of entries, which is the number of distinct keys. -/
def size (t : Table κ ν) : Nat := t.entries.length

def isEmpty (t : Table κ ν) : Bool := t.size == 0

variable [DecidableEq κ]

/-- The value that a list of entries gives to a key: that of the first entry with this key. -/
def find (k : κ) : List (κ × ν) → Option ν
  | [] => none
  | (k', v) :: rest => if k' = k then some v else find k rest

/-- Entries with the value of a key replaced in place, or with a new entry at the end. -/
def put (k : κ) (v : ν) : List (κ × ν) → List (κ × ν)
  | [] => [(k, v)]
  | (k', v') :: rest => if k' = k then (k, v) :: rest else (k', v') :: put k v rest

/-- Entries without those of a key. -/
def without (k : κ) (es : List (κ × ν)) : List (κ × ν) := es.filter fun e => e.1 ≠ k

theorem mem_keys_put {k x : κ} {v : ν} {es : List (κ × ν)} :
    x ∈ (put k v es).map Prod.fst ↔ x ∈ es.map Prod.fst ∨ x = k := by
  induction es with
  | nil => simp [put]
  | cons e rest ih => grind [put]

theorem nodup_keys_put {k : κ} {v : ν} {es : List (κ × ν)} (hnodup : (es.map Prod.fst).Nodup) :
    ((put k v es).map Prod.fst).Nodup := by
  induction es with
  | nil => simp [put]
  | cons e rest ih =>
    obtain ⟨k', v'⟩ := e
    rw [List.map_cons, List.nodup_cons] at hnodup
    by_cases h : k' = k
    · simpa [put, h] using ⟨by simpa [h] using hnodup.1, hnodup.2⟩
    · have hfresh : k' ∉ (put k v rest).map Prod.fst := by
        rw [mem_keys_put]
        exact fun hmem => hmem.elim hnodup.1 h
      simpa only [put, if_neg h, List.map_cons, List.nodup_cons] using ⟨hfresh, ih hnodup.2⟩

theorem nodup_keys_without {k : κ} {es : List (κ × ν)} (hnodup : (es.map Prod.fst).Nodup) :
    ((without k es).map Prod.fst).Nodup :=
  hnodup.sublist (List.filter_sublist.map _)

theorem find_put {k x : κ} {v : ν} {es : List (κ × ν)} :
    find x (put k v es) = if k = x then some v else find x es := by
  induction es with
  | nil => simp [put, find]
  | cons e rest ih => grind [put, find]

theorem find_without {k x : κ} {es : List (κ × ν)} :
    find x (without k es) = if k = x then none else find x es := by
  induction es with
  | nil => simp [without, find]
  | cons e rest ih => grind [without, find]

theorem find_eq_none_iff {x : κ} {es : List (κ × ν)} :
    find x es = none ↔ x ∉ es.map Prod.fst := by
  induction es with
  | nil => simp [find]
  | cons e rest ih => grind [find]

/-- The value stored for a key. -/
def get? (t : Table κ ν) (k : κ) : Option ν := find k t.entries

def contains (t : Table κ ν) (k : κ) : Bool := (t.get? k).isSome

/-- The table with a key bound to a value, whatever it was bound to before. -/
def insert (t : Table κ ν) (k : κ) (v : ν) : Table κ ν :=
  ⟨put k v t.entries, nodup_keys_put t.keys_nodup⟩

/-- The table with a key bound to a value, unless it already has one. -/
def insertNew (t : Table κ ν) (k : κ) (v : ν) : Table κ ν :=
  if t.contains k then t else t.insert k v

def erase (t : Table κ ν) (k : κ) : Table κ ν :=
  ⟨without k t.entries, nodup_keys_without t.keys_nodup⟩

/-- The table that binds the keys of a list, a later pair replacing an earlier one. -/
def ofList (es : List (κ × ν)) : Table κ ν := es.foldl (fun t e => t.insert e.1 e.2) empty

@[simp] theorem get?_empty (k : κ) : (empty : Table κ ν).get? k = none := rfl

@[simp] theorem get?_insert (t : Table κ ν) (k x : κ) (v : ν) :
    (t.insert k v).get? x = if k = x then some v else t.get? x := find_put

@[simp] theorem get?_erase (t : Table κ ν) (k x : κ) :
    (t.erase k).get? x = if k = x then none else t.get? x := find_without

theorem get?_eq_none_iff {t : Table κ ν} {k : κ} : t.get? k = none ↔ k ∉ t.keys :=
  find_eq_none_iff

/-- A new key comes last. -/
theorem keys_insert_of_get?_eq_none {t : Table κ ν} {k : κ} {v : ν} (hnew : t.get? k = none) :
    (t.insert k v).keys = t.keys ++ [k] := by
  have hput (es : List (κ × ν)) (hes : find k es = none) :
      (put k v es).map Prod.fst = es.map Prod.fst ++ [k] := by
    induction es with
    | nil => rfl
    | cons e es ih => grind [put, find]
  exact hput t.entries hnew

end Table

end LateBinding
