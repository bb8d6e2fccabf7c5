import LateBinding.Hierarchy.Edit
import Mathlib.Data.Finset.Card
import Mathlib.Logic.Relation

namespace LateBinding

open Relation

variable {τ : Type}

/-- The records on which a record builds directly: its superclass and its included modules. -/
def Record.links (r : Record τ) : List ClassId := r.superclass.toList ++ r.includes

namespace Hierarchy

/-- The records on which the record with a number builds directly. -/
def links (h : Hierarchy τ) (id : ClassId) : List ClassId := (h.get? id).elim [] Record.links

/-- One record builds directly on another. -/
def Edge (h : Hierarchy τ) (a b : ClassId) : Prop := b ∈ h.links a

/-- One record builds on another, or is the same. -/
def Reaches (h : Hierarchy τ) : ClassId → ClassId → Prop := ReflTransGen h.Edge

/-- Edges lead to records only, and never back. -/
structure Stratified (h : Hierarchy τ) : Prop where
  closed : ∀ {a b}, h.Edge a b → h.Knows b
  acyclic : ∀ a, ¬ TransGen h.Edge a a

variable {h h' : Hierarchy τ}

theorem edge_iff {a b : ClassId} : h.Edge a b ↔ ∃ r, h.get? a = some r ∧ b ∈ r.links := by
  simp only [Edge, links]
  cases h.get? a <;> simp

theorem get?_eq_none_iff {id : ClassId} : h.get? id = none ↔ ¬ h.Knows id := by
  rw [← get?_eq_some_iff_knows]
  cases h.get? id <;> simp

theorem Knows.of_get? {id : ClassId} {r : Record τ} (hr : h.get? id = some r) : h.Knows id := by
  rw [← get?_eq_some_iff_knows, hr]
  rfl

theorem Knows.get? {id : ClassId} (hid : h.Knows id) : ∃ r, h.get? id = some r :=
  Option.isSome_iff_exists.mp (get?_eq_some_iff_knows.mpr hid)

@[simp] theorem mem_ids {id : ClassId} : id ∈ h.ids ↔ h.Knows id := by
  obtain ⟨i⟩ := id
  simp [ids, Knows]

open Classical in
/-- The records on which a record builds, directly or not. -/
noncomputable def foundations (h : Hierarchy τ) (a : ClassId) : Finset ClassId :=
  h.ids.toFinset.filter fun b => TransGen h.Edge a b

/-- The number of records on which a record builds, directly or not. -/
noncomputable def height (h : Hierarchy τ) (a : ClassId) : Nat := (h.foundations a).card

theorem mem_foundations {a b : ClassId} :
    b ∈ h.foundations a ↔ h.Knows b ∧ TransGen h.Edge a b := by
  simp [foundations]

theorem height_le_size (a : ClassId) : h.height a ≤ h.size := by
  have hsub : h.foundations a ⊆ h.ids.toFinset := by
    intro b hb
    simpa using (mem_foundations.mp hb).1
  have hcard := Finset.card_le_card hsub
  have hids := List.toFinset_card_le h.ids
  have hlength : h.ids.length = h.size := by simp [ids]
  simp only [height]
  omega

/-- Every edge leads down: what the upper record builds on includes the lower record, which does
not build on itself. -/
theorem Stratified.height_lt (hh : h.Stratified) {a b : ClassId} (hab : h.Edge a b) :
    h.height b < h.height a := by
  apply Finset.card_lt_card
  have hsub : h.foundations b ⊆ h.foundations a := by
    intro c hc
    obtain ⟨hknown, hbc⟩ := mem_foundations.mp hc
    exact mem_foundations.mpr ⟨hknown, hbc.head hab⟩
  rw [Finset.ssubset_iff_of_subset hsub]
  refine ⟨b, mem_foundations.mpr ⟨hh.closed hab, .single hab⟩, ?_⟩
  intro hb
  exact hh.acyclic b (mem_foundations.mp hb).2

/-- What holds of a record if it holds of all that the record builds on holds of every number. -/
theorem Stratified.induction (hh : h.Stratified) {P : ClassId → Prop}
    (hstep : ∀ a, (∀ b, h.Edge a b → P b) → P a) (a : ClassId) : P a := by
  induction hn : h.height a using Nat.strong_induction_on generalizing a with
  | _ n ih =>
    subst hn
    exact hstep a fun b hab => ih _ (hh.height_lt hab) b rfl

theorem rank_lt_of_transGen {rank : ClassId → Nat}
    (hrank : ∀ a b, h.Edge a b → rank b < rank a) {a b : ClassId} (hab : TransGen h.Edge a b) :
    rank b < rank a := by
  induction hab with
  | single hedge => exact hrank _ _ hedge
  | tail _ hedge ih => exact (hrank _ _ hedge).trans ih

theorem Stratified.of_rank (hclosed : ∀ a b, h.Edge a b → h.Knows b) (rank : ClassId → Nat)
    (hrank : ∀ a b, h.Edge a b → rank b < rank a) : h.Stratified where
  closed hab := hclosed _ _ hab
  acyclic a hcycle := by
    have hlt := rank_lt_of_transGen hrank hcycle
    omega

/-- Taking edges away keeps a graph stratified. -/
theorem Stratified.mono (hh : h.Stratified) (hsize : h.size ≤ h'.size)
    (hedge : ∀ a b, h'.Edge a b → h.Edge a b) : h'.Stratified := by
  refine .of_rank (fun a b hab => ?_) h.height fun a b hab => hh.height_lt (hedge a b hab)
  exact Nat.lt_of_lt_of_le (hh.closed (hedge a b hab)) hsize

/-- One more edge keeps a graph stratified if no path leads back along it. Every record from which
the edge can be reached moves up by more than the height of the edge's end. -/
theorem Stratified.addEdge (hh : h.Stratified) (hsize : h.size ≤ h'.size) {t m : ClassId}
    (hknown : h'.Knows m) (hback : ¬ h.Reaches m t)
    (hedge : ∀ a b, h'.Edge a b → h.Edge a b ∨ a = t ∧ b = m) : h'.Stratified := by
  classical
  refine .of_rank (fun a b hab => ?_)
    (fun a => if h.Reaches a t then h.height a + h.height m + 1 else h.height a)
    (fun a b hab => ?_)
  · rcases hedge a b hab with hold | ⟨-, rfl⟩
    · exact Nat.lt_of_lt_of_le (hh.closed hold) hsize
    · exact hknown
  · rcases hedge a b hab with hold | ⟨rfl, rfl⟩
    · have hlt := hh.height_lt hold
      by_cases hb : h.Reaches b t
      · have ha : h.Reaches a t := ReflTransGen.head hold hb
        simp only [if_pos ha, if_pos hb]
        omega
      · simp only [if_neg hb]
        split <;> omega
    · have ha : h.Reaches a a := ReflTransGen.refl
      simp only [if_pos ha, if_neg hback]
      omega

/-- From a record, paths lead to records only. -/
theorem Stratified.knows_of_reaches (hh : h.Stratified) {a b : ClassId} (ha : h.Knows a)
    (hab : h.Reaches a b) : h.Knows b := by
  cases hab with
  | refl => exact ha
  | tail _ hedge => exact hh.closed hedge

end Hierarchy

end LateBinding
