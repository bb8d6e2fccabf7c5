import LateBinding.Hierarchy.Edit
import LateBinding.Proofs.Hierarchy.Evolution

namespace LateBinding

variable {τ : Type}

namespace Hierarchy

variable {h : Hierarchy τ}

theorem view_eq_defined_iff {id : ClassId} {name : Symbol} {m : Method τ} :
    h.view id name = .defined m ↔ h.first? id name = some m ∧ m.isUndefined = false :=
  Walk.ofFirst_eq_defined_iff

theorem knows_of_view_eq_defined {id : ClassId} {name : Symbol} {m : Method τ}
    (hm : h.view id name = .defined m) : h.Knows id := by
  by_contra hid
  rw [view_unknown (get?_eq_none_iff.mpr hid)] at hm
  cases hm

end Hierarchy

namespace Edit

/-- The record whose method table a request is about. -/
def table? : Edit τ → Option ClassId
  | define owner .. => some owner
  | remove owner _ => some owner
  | undefine owner _ => some owner
  | addAlias owner _ _ => some owner
  | setVisibility owner _ _ => some owner
  | _ => none

@[simp] theorem table?_map {σ : Type} (f : τ → σ) (e : Edit τ) : (e.map f).table? = e.table? := by
  cases e <;> rfl

/-- The entry that a request writes if it is granted. -/
inductive Puts (h : Hierarchy τ) : Edit τ → Method τ → Prop where
  | define {owner : ClassId} (howner : h.Knows owner) (name : Symbol) (visibility : Visibility)
    (target : τ) (flags : MethodFlags) : Puts h (.define owner name visibility target flags)
      (.new name owner visibility target flags (h.generation + 1))
  | undefine {owner : ClassId} {name : Symbol} {m : Method τ} (hm : h.view owner name = .defined m) :
    Puts h (.undefine owner name) (.tombstone name owner (h.generation + 1))
  | addAlias {owner : ClassId} {old : Symbol} {m : Method τ} (hm : h.view owner old = .defined m)
    (new : Symbol) : Puts h (.addAlias owner new old) (m.aliased new owner (h.generation + 1))
  | setVisibility {owner : ClassId} {name : Symbol} {m : Method τ}
    (hm : h.view owner name = .defined m) (visibility : Visibility) :
    Puts h (.setVisibility owner name visibility)
      (m.withVisibility owner visibility (h.generation + 1))

variable {h : Hierarchy τ} {e : Edit τ} {m : Method τ}

theorem Puts.table?_eq (hputs : e.Puts h m) : e.table? = some m.owner := by
  cases hputs <;> rfl

theorem Puts.generation_eq (hputs : e.Puts h m) : m.generation = h.generation + 1 := by
  cases hputs <;> rfl

theorem Puts.knows (hputs : e.Puts h m) : h.Knows m.owner := by
  cases hputs with
  | define howner => exact howner
  | undefine hm | addAlias hm | setVisibility hm => exact Hierarchy.knows_of_view_eq_defined hm

end Edit

namespace Hierarchy

variable {h : Hierarchy τ}

theorem define_unknown {owner : ClassId} (howner : ¬ h.Knows owner) (name : Symbol)
    (visibility : Visibility) (target : τ) (flags : MethodFlags) :
    h.define owner name visibility target flags = (.error (.unknownClass owner), h) := by
  rw [define, get?_eq_none_iff.mpr howner]

theorem define_of_knows {owner : ClassId} (howner : h.Knows owner) (name : Symbol)
    (visibility : Visibility) (target : τ) (flags : MethodFlags) :
    h.define owner name visibility target flags =
      let m := Method.new name owner visibility target flags (h.generation + 1)
      (.ok m, h.write m) := by
  obtain ⟨r, hr⟩ := howner.get?
  rw [define, hr]

theorem revise_unknown {owner : ClassId} (howner : h.get? owner = none) (name : Symbol)
    (entry : Method τ → Nat → Method τ) :
    h.revise owner name entry = (.error (.unknownClass owner), h) := by
  rw [revise, howner]

/-- The method that the walk from the owner finds is what the new entry is made from. The walk moves
no counter. -/
theorem Sound.revise_of_defined (hh : h.Sound) {owner : ClassId} {name : Symbol} {m : Method τ}
    (hm : h.view owner name = .defined m) (entry : Method τ → Nat → Method τ) :
    h.revise owner name entry =
      (.ok (), (h.ancestors owner).2.write (entry m (h.generation + 1))) := by
  obtain ⟨r, hr⟩ := (knows_of_view_eq_defined hm).get?
  obtain ⟨hfirst, hdefined⟩ := view_eq_defined_iff.mp hm
  have hfound : (h.first? owner name).filter (fun m => !m.isUndefined) = some m :=
    Option.filter_eq_some_iff.mpr ⟨hfirst, by rw [hdefined]; rfl⟩
  have hgeneration : (h.ancestors owner).2.generation = h.generation :=
    generation_of_forget_eq (hh.recalls_ancestors owner).forget_eq
  rw [revise, hr, hh.resolveDefined?_eq, hfound]
  simp only [hgeneration]

/-- Without a method for the name, nothing is written. -/
theorem Sound.revise_of_not_defined (hh : h.Sound) {owner : ClassId} {name : Symbol} {r : Record τ}
    (hr : h.get? owner = some r) (hnone : ∀ m, h.view owner name ≠ .defined m)
    (entry : Method τ → Nat → Method τ) :
    h.revise owner name entry = (.error (.undefinedIn name r.name), (h.ancestors owner).2) := by
  have hfound : (h.first? owner name).filter (fun m => !m.isUndefined) = none := by
    refine Option.filter_eq_none_iff.mpr fun m hfirst hdefined => ?_
    exact hnone m (view_eq_defined_iff.mpr ⟨hfirst, by simpa using hdefined⟩)
  rw [revise, hr, hh.resolveDefined?_eq, hfound]

theorem Sound.revise_cases (hh : h.Sound) (owner : ClassId) (name : Symbol)
    (entry : Method τ → Nat → Method τ) :
    (∃ m, h.view owner name = .defined m ∧ h.revise owner name entry =
      (.ok (), (h.ancestors owner).2.write (entry m (h.generation + 1)))) ∨
      ∃ f, h.revise owner name entry = (.error f, (h.ancestors owner).2) := by
  by_cases hdefined : ∃ m, h.view owner name = .defined m
  · obtain ⟨m, hm⟩ := hdefined
    exact .inl ⟨m, hm, hh.revise_of_defined hm entry⟩
  · refine .inr ?_
    cases hr : h.get? owner with
    | none => exact ⟨_, by rw [revise_unknown hr, ancestors_unknown hr]⟩
    | some r => exact ⟨_, hh.revise_of_not_defined hr (not_exists.mp hdefined) entry⟩

theorem remove_unknown {owner : ClassId} (howner : h.get? owner = none) (name : Symbol) :
    h.remove owner name = (.error (.unknownClass owner), h) := by
  rw [remove, howner]

theorem remove_of_own? {owner : ClassId} {name : Symbol} {m : Method τ}
    (hm : h.own? owner name = some m) : h.remove owner name =
      (.ok (), (h.modifyMethods owner fun t => t.erase name).publishTable owner
        (h.generation + 1)) := by
  obtain ⟨r, hr, hown⟩ := Option.bind_eq_some_iff.mp hm
  have hdefines : r.defines name = true := Option.isSome_of_eq_some hown
  rw [remove, hr]
  exact if_pos hdefines

theorem remove_of_not_own? {owner : ClassId} {name : Symbol} {r : Record τ}
    (hr : h.get? owner = some r) (hnone : h.own? owner name = none) :
    h.remove owner name = (.error (.notDefined name r.name), h) := by
  rw [own?, hr, Option.bind_some] at hnone
  have hfree : ¬ r.defines name = true := by
    rw [Record.defines, Table.contains, ← Record.own?, hnone]
    exact Bool.false_ne_true
  rw [remove, hr]
  exact if_neg hfree

/-- What becomes of a request about a method table. -/
inductive TableOutcome (h : Hierarchy τ) (e : Edit τ) : Prop where
  | written {h₁ : Hierarchy τ} {m : Method τ} {result : Edited} (hrec : h.Recalls h₁)
    (hputs : e.Puts h m) (heq : e.apply h = (.ok result, h₁.write m))
  | removed {owner : ClassId} {name : Symbol} {m : Method τ} (he : e = .remove owner name)
    (hm : h.own? owner name = some m) (heq : e.apply h = (.ok .done,
      (h.modifyMethods owner fun t => t.erase name).publishTable owner (h.generation + 1)))
  | refused {h₁ : Hierarchy τ} {f : Fault} (hrec : h.Recalls h₁) (heq : e.apply h = (.error f, h₁))

theorem Sound.tableOutcome_revise (hh : h.Sound) {e : Edit τ} {owner : ClassId} {name : Symbol}
    {entry : Method τ → Nat → Method τ}
    (he : e.apply h = Edit.finished (h.revise owner name entry))
    (hputs : ∀ m, h.view owner name = .defined m → e.Puts h (entry m (h.generation + 1))) :
    TableOutcome h e := by
  have hrec := hh.recalls_ancestors owner
  rcases hh.revise_cases owner name entry with ⟨m, hm, heq⟩ | ⟨f, heq⟩
  · rw [heq] at he
    exact .written hrec (hputs m hm) he
  · rw [heq] at he
    exact .refused hrec he

theorem Sound.tableOutcome (hh : h.Sound) {e : Edit τ} {owner : ClassId}
    (he : e.table? = some owner) : TableOutcome h e := by
  cases e with
  | define owner name visibility target flags =>
    by_cases howner : h.Knows owner
    · have heq := define_of_knows howner name visibility target flags
      exact .written hh.recalls_refl (.define howner name visibility target flags)
        (by rw [Edit.apply, heq]; rfl)
    · have heq := define_unknown howner name visibility target flags
      exact .refused hh.recalls_refl (by rw [Edit.apply, heq]; rfl)
  | remove owner name =>
    cases hr : h.get? owner with
    | none => exact .refused hh.recalls_refl (by rw [Edit.apply, remove_unknown hr]; rfl)
    | some r =>
      cases hm : h.own? owner name with
      | none => exact .refused hh.recalls_refl (by rw [Edit.apply, remove_of_not_own? hr hm]; rfl)
      | some m => exact .removed rfl hm (by rw [Edit.apply, remove_of_own? hm]; rfl)
  | undefine owner name => exact hh.tableOutcome_revise rfl fun m hm => .undefine hm
  | addAlias owner new old => exact hh.tableOutcome_revise rfl fun m hm => .addAlias hm new
  | setVisibility owner name visibility =>
    exact hh.tableOutcome_revise rfl fun m hm => .setVisibility hm visibility
  | _ => cases he

/-- A request about a method table that is granted publishes a change of it. -/
theorem Sound.table_granted (hh : h.Sound) {e : Edit τ} {owner : ClassId}
    (he : e.table? = some owner) {result : Edited} (hok : (e.apply h).1 = .ok result) :
    h.Knows owner ∧ ∃ h₁ f, h.Recalls h₁ ∧
      (e.apply h).2 = (h₁.modifyMethods owner f).publishTable owner (h₁.generation + 1) := by
  cases hh.tableOutcome he with
  | written hrec hputs heq =>
    rename_i h₁ m _
    obtain rfl : m.owner = owner := Option.some.inj (hputs.table?_eq.symm.trans he)
    refine ⟨hputs.knows, h₁, fun t => t.insert m.name m, hrec, ?_⟩
    rw [heq, generation_of_forget_eq hrec.forget_eq, ← hputs.generation_eq]
    exact write_eq_publishTable h₁ m
  | removed hremove hm heq =>
    subst hremove
    obtain rfl := Option.some.inj he
    obtain ⟨r, hr, -⟩ := Option.bind_eq_some_iff.mp hm
    exact ⟨.of_get? hr, h, _, hh.recalls_refl, by rw [heq]⟩
  | refused hrec heq =>
    rw [heq] at hok
    cases hok

/-- Whatever a request about a method table comes to, the hierarchy remembers more at most, and
perhaps one method table changes. -/
theorem Sound.table_cases (hh : h.Sound) {e : Edit τ} {owner : ClassId}
    (he : e.table? = some owner) :
    ∃ h₁, h.Recalls h₁ ∧ ((e.apply h).2 = h₁ ∨
      ∃ f, (e.apply h).2 = (h₁.modifyMethods owner f).publishTable owner (h₁.generation + 1)) := by
  cases hh.tableOutcome he with
  | written hrec hputs heq | removed hremove hm heq =>
    obtain ⟨-, h₁, f, hrec, hpublished⟩ := hh.table_granted he (congrArg Prod.fst heq)
    exact ⟨h₁, hrec, .inr ⟨f, hpublished⟩⟩
  | refused hrec heq => exact ⟨_, hrec, .inl (by rw [heq])⟩

/-- A request about a method table leaves of every record all but its methods, its stamp and what it
remembers. -/
theorem Sound.map_get?_table {α : Type} {g : Record τ → α}
    (hg : ∀ r methods stamp memo, g { r with methods, stamp, memo } = g r) (hh : h.Sound)
    {e : Edit τ} {owner : ClassId} (he : e.table? = some owner) (id : ClassId) :
    ((e.apply h).2.get? id).map g = (h.get? id).map g := by
  obtain ⟨h₁, hrec, hcases⟩ := hh.table_cases he
  have hsame : (h₁.get? id).map g = (h.get? id).map g :=
    map_get?_of_forget_eq (fun r => hg r r.methods r.stamp none) hrec.forget_eq id
  rw [← hsame]
  rcases hcases with heq | ⟨f, heq⟩
  · rw [heq]
  · rw [heq, hrec.sound.map_get?_publish hg owner f (Nat.le_succ _)]

end Hierarchy

end LateBinding
