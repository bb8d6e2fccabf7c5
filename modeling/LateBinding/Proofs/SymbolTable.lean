import Mathlib.Data.Finset.Card
import Mathlib.Data.List.Induction
import LateBinding.Symbol.Table

namespace LateBinding

namespace SymbolTable

/-- Interns texts one after the other. The numbers come in the order of the texts. -/
def internAll (t : SymbolTable) : List String → List SymbolIndex × SymbolTable
  | [] => ([], t)
  | text :: texts =>
    let (s, t) := t.intern text
    let (ss, t) := t.internAll texts
    (s :: ss, t)

/-- The two parts are in step. -/
structure Paired (t : SymbolTable) : Prop where
  keys_eq : t.indices.keys = t.names
  index_eq : ∀ text ∈ t.names, t.indices.get? text = some ⟨t.names.idxOf text % capacity⟩

variable {t : SymbolTable} {text : String} {texts more : List String}

theorem paired_empty : empty.Paired := ⟨rfl, fun _ htext => by cases htext⟩

theorem Paired.names_nodup (ht : t.Paired) : t.names.Nodup := ht.keys_eq ▸ t.indices.keys_nodup

theorem Paired.get?_eq_none_iff (ht : t.Paired) : t.indices.get? text = none ↔ text ∉ t.names := by
  rw [Table.get?_eq_none_iff, ht.keys_eq]

/-- A text gets its place, which is at the end if it is new. -/
theorem Paired.intern_fst (ht : t.Paired) (text : String) :
    (t.intern text).1 = ⟨t.names.idxOf text % capacity⟩ := by
  by_cases hold : text ∈ t.names
  · rw [intern_of_get?_eq_some (ht.index_eq text hold)]
  · rw [intern_of_get?_eq_none (ht.get?_eq_none_iff.mpr hold), List.idxOf_eq_length hold, size]

theorem Paired.names_intern (ht : t.Paired) (text : String) :
    (t.intern text).2.names = if text ∈ t.names then t.names else t.names ++ [text] := by
  by_cases hold : text ∈ t.names
  · rw [intern_of_get?_eq_some (ht.index_eq text hold), if_pos hold]
  · rw [intern_of_get?_eq_none (ht.get?_eq_none_iff.mpr hold), if_neg hold]

/-- The parts change together. -/
theorem Paired.intern (ht : t.Paired) (text : String) : (t.intern text).2.Paired := by
  by_cases hold : text ∈ t.names
  · rwa [intern_of_get?_eq_some (ht.index_eq text hold)]
  · have hnone := ht.get?_eq_none_iff.mpr hold
    rw [intern_of_get?_eq_none hnone]
    refine ⟨by rw [Table.keys_insert_of_get?_eq_none hnone, ht.keys_eq], fun other hother => ?_⟩
    rw [Table.get?_insert]
    by_cases hsame : text = other
    · subst hsame
      rw [if_pos rfl, List.idxOf_append_of_notMem hold]
      simp [size]
    · have hbefore : other ∈ t.names := by
        rcases List.mem_append.mp hother with hbefore | hlast
        · exact hbefore
        · exact absurd (List.mem_singleton.mp hlast).symm hsame
      rw [if_neg hsame, ht.index_eq other hbefore, List.idxOf_append_of_mem hbefore]

theorem internAll_cons (t : SymbolTable) (text : String) (texts : List String) :
    t.internAll (text :: texts) =
      ((t.intern text).1 :: ((t.intern text).2.internAll texts).1,
        ((t.intern text).2.internAll texts).2) := rfl

theorem internAll_append (t : SymbolTable) (texts more : List String) :
    t.internAll (texts ++ more) =
      ((t.internAll texts).1 ++ ((t.internAll texts).2.internAll more).1,
        ((t.internAll texts).2.internAll more).2) := by
  induction texts generalizing t with
  | nil => rfl
  | cons text texts ih => rw [List.cons_append, internAll_cons, ih, internAll_cons, List.cons_append]

theorem names_prefix_internAll (t : SymbolTable) (texts : List String) :
    t.names <+: (t.internAll texts).2.names := by
  induction texts generalizing t with
  | nil => exact List.prefix_rfl
  | cons text texts ih => exact (t.names_prefix_intern text).trans (ih _)

theorem Paired.internAll (ht : t.Paired) (texts : List String) : (t.internAll texts).2.Paired := by
  induction texts generalizing t with
  | nil => exact ht
  | cons text texts ih => exact ih (ht.intern text)

/-- A place among the first texts is the place among all of them. -/
theorem idxOf_eq_of_prefix {names names' : List String} (hbegins : names <+: names')
    (htext : text ∈ names) : names'.idxOf text = names.idxOf text := by
  obtain ⟨rest, rfl⟩ := hbegins
  exact List.idxOf_append_of_mem htext

/-- All numbers are the places of their texts in the table that results. -/
theorem Paired.internAll_fst (ht : t.Paired) (texts : List String) :
    (t.internAll texts).1 =
      texts.map fun text => ⟨(t.internAll texts).2.names.idxOf text % capacity⟩ := by
  induction texts generalizing t with
  | nil => rfl
  | cons text texts ih =>
    have hlater := names_prefix_internAll (t.intern text).2 texts
    have hmem : text ∈ (t.intern text).2.names := by
      rw [ht.names_intern]
      split
      · assumption
      · simp
    have hplace : (t.intern text).2.names.idxOf text = t.names.idxOf text := by
      rw [ht.names_intern]
      split
      · rfl
      · rename_i hnew
        rw [List.idxOf_append_of_notMem hnew, List.idxOf_eq_length hnew]
        simp
    rw [internAll_cons, List.map_cons, ih (ht.intern text), ht.intern_fst,
      idxOf_eq_of_prefix hlater hmem, hplace]

/-- The table has the texts in the order of their first occurrences. -/
theorem names_internAll (texts : List String) : (empty.internAll texts).2.names = texts.eraseDups := by
  induction texts using List.reverseRecOn with
  | nil => rfl
  | append_singleton texts text ih =>
    have hmem : text ∈ (empty.internAll texts).2.names ↔ text ∈ texts := by
      rw [ih, List.mem_eraseDups]
    rw [internAll_append, internAll_cons, List.eraseDups_append, ← ih]
    simp only [SymbolTable.internAll, (paired_empty.internAll texts).names_intern, hmem]
    by_cases hold : text ∈ texts
    · simp [List.removeAll, hold]
    · simp [List.removeAll, hold, List.eraseDups_cons]

/-- As many texts are there as are different. -/
theorem size_internAll (texts : List String) :
    (empty.internAll texts).2.size = texts.toFinset.card := by
  have hsame : texts.toFinset = (empty.internAll texts).2.names.toFinset := by
    ext text
    rw [List.mem_toFinset, List.mem_toFinset, names_internAll, List.mem_eraseDups]
  rw [hsame, List.toFinset_card_of_nodup (paired_empty.internAll texts).names_nodup, size]

/-- While there are numbers left, each number is the place of its text among the first occurrences. -/
theorem internAll_fst_of_room (hroom : texts.toFinset.card < capacity) :
    (empty.internAll texts).1 = texts.map fun text => ⟨texts.eraseDups.idxOf text⟩ := by
  rw [paired_empty.internAll_fst, names_internAll]
  refine List.map_congr_left fun text htext => ?_
  have hplace : texts.eraseDups.idxOf text < texts.eraseDups.length :=
    List.idxOf_lt_length_of_mem (List.mem_eraseDups.mpr htext)
  have hsize := size_internAll texts
  rw [size, names_internAll] at hsize
  rw [Nat.mod_eq_of_lt (by omega)]

theorem place_inj {texts : List String} {a b : String} (ha : a ∈ texts) :
    texts.eraseDups.idxOf a = texts.eraseDups.idxOf b ↔ a = b :=
  List.idxOf_inj (List.mem_eraseDups.mpr ha)

/-- The places are the numbers below the size. -/
theorem exists_place_iff (texts : List String) (n : Nat) :
    (∃ text ∈ texts, texts.eraseDups.idxOf text = n) ↔ n < (empty.internAll texts).2.size := by
  have hnodup : texts.eraseDups.Nodup := by
    rw [← names_internAll]
    exact (paired_empty.internAll texts).names_nodup
  rw [size, names_internAll]
  constructor
  · rintro ⟨text, htext, rfl⟩
    exact List.idxOf_lt_length_of_mem (List.mem_eraseDups.mpr htext)
  · intro hn
    exact ⟨texts.eraseDups[n], List.mem_eraseDups.mp (List.getElem_mem hn), hnodup.idxOf_getElem n hn⟩

/-- A place leads back to its text, also when further texts have been interned. -/
theorem name_place {more : List String} (htext : text ∈ texts) :
    ((empty.internAll texts).2.internAll more).2.name ⟨texts.eraseDups.idxOf text⟩ = text := by
  have hbegins := names_prefix_internAll (empty.internAll texts).2 more
  rw [names_internAll] at hbegins
  obtain ⟨rest, hrest⟩ := hbegins
  have hplace := List.idxOf_lt_length_of_mem (List.mem_eraseDups.mpr htext)
  rw [name, ← hrest, List.getD_eq_getElem?_getD, List.getElem?_append_left hplace,
    List.getElem?_eq_getElem hplace, Option.getD_some, List.getElem_idxOf]

/-- Texts are interned, fewer than there are numbers. The numbers are the places of the texts in the order
of their first occurrences. So two of them are the same exactly if their texts are, and those in use are
the ones below the size, which is how many texts are different. Each number leads back to its text, at once
and behind any further texts, and a number that was not given out leads to a placeholder. -/
theorem numbers_first_occurrences {texts : List String} (hroom : texts.toFinset.card < capacity) :
    let symbols := (empty.internAll texts).1
    let t := (empty.internAll texts).2
    symbols.length = texts.length ∧
    (∀ i j : Nat, symbols[i]? = symbols[j]? ↔ texts[i]? = texts[j]?) ∧
    symbols = texts.map (fun text => ⟨texts.eraseDups.idxOf text⟩) ∧
    (∀ n, (⟨n⟩ : SymbolIndex) ∈ symbols ↔ n < t.size) ∧
    t.size = texts.toFinset.card ∧
    (∀ more, symbols.map (t.internAll more).2.name = texts) ∧
    ∀ n, t.size ≤ n → t.name ⟨n⟩ = s!"<symbol#{n}>" := by
  intro symbols t
  have hsymbols : symbols = texts.map (fun text => ⟨texts.eraseDups.idxOf text⟩) :=
    internAll_fst_of_room hroom
  refine ⟨?_, fun i j => ?_, hsymbols, fun n => ?_, size_internAll texts, fun more => ?_,
    fun n hn => name_of_size_le hn⟩
  · rw [hsymbols, List.length_map]
  · rw [hsymbols, List.getElem?_map, List.getElem?_map]
    refine ⟨fun hsame => ?_, fun hsame => by rw [hsame]⟩
    -- Texts with the same place are the same, since the first one has a place.
    cases hi : texts[i]? with
    | none =>
      rw [hi] at hsame
      exact (Option.map_eq_none_iff.mp hsame.symm).symm
    | some a =>
      rw [hi] at hsame
      obtain ⟨b, hj, hplaces⟩ := Option.map_eq_some_iff.mp hsame.symm
      rw [hj, (place_inj (List.mem_of_getElem? hi)).mp (SymbolIndex.mk.inj hplaces).symm]
  · rw [hsymbols, List.mem_map, ← exists_place_iff]
    simp only [SymbolIndex.mk.injEq]
  · rw [hsymbols, List.map_map]
    exact (List.map_congr_left fun text htext => name_place htext).trans (List.map_id texts)

/-- A text that comes twice, and one more behind it. -/
theorem numbers_first_occurrences_repeated :
    let texts := ["foo", "bar", "foo", "baz"]
    texts.toFinset.card < capacity ∧ (empty.internAll texts).1 = [⟨0⟩, ⟨1⟩, ⟨0⟩, ⟨2⟩] ∧
      ∀ more, (empty.internAll texts).1.map ((empty.internAll texts).2.internAll more).2.name =
        texts := by
  intro texts
  have hroom : texts.toFinset.card < capacity := by decide
  have hsymbols : (empty.internAll texts).1 = [⟨0⟩, ⟨1⟩, ⟨0⟩, ⟨2⟩] := by decide
  obtain ⟨-, -, -, -, -, hnames, -⟩ := numbers_first_occurrences hroom
  exact ⟨hroom, hsymbols, hnames⟩

end SymbolTable

end LateBinding
