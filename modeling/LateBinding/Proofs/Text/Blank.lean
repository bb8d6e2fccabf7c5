import Mathlib.Data.List.DropRight
import LateBinding.Text.Blank

namespace LateBinding

namespace Text

/-- All characters are white space. -/
def AllBlank (cs : List Char) : Prop := ∀ c ∈ cs, isBlank c = true

/-- The second text is in the first one with white space around it, and has none at its own ends. -/
inductive HasCore : List Char → List Char → Prop where
  | intro {before core after : List Char} (hbefore : AllBlank before) (hafter : AllBlank after)
    (hhead : ∀ c ∈ core.head?, isBlank c = false)
    (hlast : ∀ c ∈ core.getLast?, isBlank c = false) : HasCore (before ++ core ++ after) core

variable {cs core before after : List Char}

theorem trim_eq_rdropWhile (cs : List Char) :
    trim cs = (cs.dropWhile isBlank).rdropWhile isBlank := rfl

/-- A text that does not begin with white space loses none in front. -/
theorem dropWhile_eq_self (hhead : ∀ c ∈ cs.head?, isBlank c = false) :
    cs.dropWhile isBlank = cs := by
  cases cs with
  | nil => rfl
  | cons c cs => exact List.dropWhile_cons_of_neg (by simp [hhead c rfl])

theorem rdropWhile_eq_self (hlast : ∀ c ∈ cs.getLast?, isBlank c = false) :
    cs.rdropWhile isBlank = cs := by
  rw [List.rdropWhile, dropWhile_eq_self (by rwa [List.head?_reverse]), List.reverse_reverse]

theorem rdropWhile_append (hafter : AllBlank after) :
    (cs ++ after).rdropWhile isBlank = cs.rdropWhile isBlank := by
  rw [List.rdropWhile, List.reverse_append, List.dropWhile_append_of_pos, List.rdropWhile]
  exact fun c hc => hafter c (List.mem_reverse.mp hc)

theorem dropWhile_append (hbefore : AllBlank before) :
    (before ++ cs).dropWhile isBlank = cs.dropWhile isBlank :=
  List.dropWhile_append_of_pos hbefore

/-- What is left begins with another character. -/
theorem head?_dropWhile (cs : List Char) : ∀ c ∈ (cs.dropWhile isBlank).head?, isBlank c = false := by
  intro c hc
  have hnot := List.head?_dropWhile_not isBlank cs
  rw [Option.mem_def.mp hc] at hnot
  exact hnot

theorem HasCore.trim_eq (hcore : HasCore cs core) : trim cs = core := by
  cases hcore with
  | @intro before core after hbefore hafter hhead hlast =>
    rw [trim_eq_rdropWhile, List.append_assoc, dropWhile_append hbefore]
    cases core with
    | nil =>
      rw [List.nil_append, List.dropWhile_eq_nil_iff.mpr hafter]
      rfl
    | cons c core =>
      rw [dropWhile_eq_self (by simpa using hhead), rdropWhile_append hafter,
        rdropWhile_eq_self hlast]

theorem hasCore_trim (cs : List Char) : HasCore cs (trim cs) := by
  have hsplit : cs.takeWhile isBlank ++ trim cs ++ (cs.dropWhile isBlank).rtakeWhile isBlank = cs := by
    rw [trim_eq_rdropWhile, List.append_assoc, List.rdropWhile_append_rtakeWhile,
      List.takeWhile_append_dropWhile]
  have hcore : HasCore (cs.takeWhile isBlank ++ trim cs ++ (cs.dropWhile isBlank).rtakeWhile isBlank)
      (trim cs) := by
    refine .intro (fun _ => List.mem_takeWhile_imp) (fun _ => List.mem_rtakeWhile_imp)
      (fun c hc => ?_) (fun c hc => ?_)
    · -- The core begins as what is left when the white space in front is gone.
      obtain ⟨rest, hrest⟩ := List.rdropWhile_prefix isBlank (cs.dropWhile isBlank)
      refine head?_dropWhile cs c ?_
      rw [← hrest, List.head?_append, ← trim_eq_rdropWhile, Option.mem_def.mp hc]
      rfl
    · rw [trim_eq_rdropWhile, List.rdropWhile, List.getLast?_reverse] at hc
      exact head?_dropWhile _ c hc
  rwa [hsplit] at hcore

theorem trim_eq_iff : trim cs = core ↔ HasCore cs core :=
  ⟨fun htrim => htrim ▸ hasCore_trim cs, HasCore.trim_eq⟩

/-- More white space around a text does not matter. -/
theorem trim_surrounded (hbefore : AllBlank before) (hafter : AllBlank after) :
    trim (before ++ cs ++ after) = trim cs := by
  have hcore := hasCore_trim cs
  generalize trim cs = core at hcore
  cases hcore with
  | @intro inner core inner' hinner hinner' hhead hlast =>
    have hwider : HasCore (before ++ inner ++ core ++ (inner' ++ after)) core := by
      refine .intro (fun c hc => ?_) (fun c hc => ?_) hhead hlast
      · exact (List.mem_append.mp hc).elim (hbefore c) (hinner c)
      · exact (List.mem_append.mp hc).elim (hinner' c) (hafter c)
    simpa only [List.append_assoc] using hwider.trim_eq

end Text

end LateBinding
