import LateBinding.Proofs.Hierarchy.Lasting
import LateBinding.Proofs.Hierarchy.Moves

namespace LateBinding

open Relation

variable {τ : Type}

namespace Hierarchy

variable {h h' : Hierarchy τ} {a b : ClassId}

/-- One record builds on another, or is the same, by way of included modules alone. -/
def Mixes (h : Hierarchy τ) : ClassId → ClassId → Prop :=
  ReflTransGen fun a b => ∃ t, h.ties? a = some t ∧ b ∈ t.includes

theorem Grows.mixes (hgrows : h.Grows h') (hab : h.Mixes a b) : h'.Mixes a b := by
  refine ReflTransGen.mono (fun x y hxy => ?_) _ _ hab
  obtain ⟨t, ht, hmem⟩ := hxy
  obtain ⟨t', ht', -, hprefix⟩ := hgrows.ties ht
  exact ⟨t', ht', hprefix.subset hmem⟩

theorem Mixes.reaches (hab : h.Mixes a b) : h.Reaches a b := by
  refine ReflTransGen.mono (fun x y hxy => ?_) _ _ hab
  obtain ⟨t, ht, hmem⟩ := hxy
  obtain ⟨r, hr, rfl⟩ := ties?_eq_some_iff.mp ht
  exact edge_iff.mpr ⟨r, hr, List.mem_append_right _ hmem⟩

/-- A module that is not among the ancestors is recorded. -/
theorem Sound.mixes_addInclude (hh : h.Sound) {target module : ClassId}
    (hok : (h.addInclude target module).1 = .ok ()) (hnew : module ∉ h.linearize target) :
    (h.addInclude target module).2.Mixes target module := by
  cases hh.includeOutcome target module with
  | refused hrec heq =>
    rw [heq] at hok
    cases hok
  | listed hrec hlisted heq => exact absurd hlisted hnew
  | added hrec htarget hmodule _ hback heq =>
    rename_i h₁
    obtain ⟨r, hr⟩ := ((knows_iff_of_forget_eq hrec.forget_eq).mpr htarget).get?
    rw [heq]
    refine .single ⟨_, ties?_eq_some_iff.mpr ⟨_, by rw [get?_regraph, hr, Option.map_some], rfl⟩, ?_⟩
    simp [Record.ties]

/-- A module for which a request is granted is among the ancestors. -/
theorem Sound.mem_linearize_included (hh : h.Sound) {target module : ClassId}
    (hok : (h.addInclude target module).1 = .ok ()) :
    module ∈ (h.addInclude target module).2.linearize target := by
  rw [hh.mem_linearize_addInclude hok]
  cases hh.includeOutcome target module with
  | refused hrec heq =>
    rw [heq] at hok
    cases hok
  | listed hrec hlisted heq => exact .inl hlisted
  | added hrec htarget hmodule hnew hback heq =>
    exact .inr ⟨hh.self_mem_linearize htarget, hh.self_mem_linearize hmodule⟩

/-- Once a request to include a module is granted, the module is among the ancestors. It stays there
for good if it can be reached by way of included modules alone, and so in particular if it was not
among the ancestors before. If it ever gets lost, then because a class was moved with whose old
superclass went all paths to the module, to a new superclass that does not have it; and every such
move does lose it. -/
theorem included_after {before later : List (Operation τ)} {target module : ClassId}
    (hops : (empty : Hierarchy τ).Supports
      (before ++ .edit (.addInclude target module) :: later))
    (hok : ((empty.after before : Hierarchy τ).addInclude target module).1 = .ok ()) :
    let h₀ : Hierarchy τ := empty.after before
    let h₁ := (h₀.addInclude target module).2
    let h := h₁.after later
    module ∈ (h₁.ancestors target).1 ∧
      (module ∉ (h₀.ancestors target).1 → h₁.Mixes target module) ∧
      (h₁.Mixes target module → module ∈ (h.ancestors target).1) ∧
      (module ∉ (h.ancestors target).1 → ∃ pre cls superclass post,
        later = pre ++ .edit (.setSuperclass cls superclass) :: post ∧
          (h₁.after pre).Severs cls superclass target module) ∧
      ∀ cls superclass, h.Severs cls superclass target module →
        module ∉ ((h.setSuperclass cls superclass).2.ancestors target).1 := by
  intro h₀ h₁ h
  obtain ⟨hbefore, -, hlater⟩ := throughout_append.mp hops
  have hh₀ : h₀.Sound := sound_after hbefore
  have hh₁ : h₁.Sound := (hh₀.evolves_addInclude target module).sound
  have hh : h.Sound := hh₁.after hlater
  have hfirst : module ∈ h₁.linearize target := hh₀.mem_linearize_included hok
  simp only [hh₀.ancestors_fst, hh₁.ancestors_fst, hh.ancestors_fst]
  refine ⟨hfirst, hh₀.mixes_addInclude hok, fun hmixes => ?_, hh₁.severed_of_lost hlater hfirst,
    fun cls superclass hsevers => ?_⟩
  · have hknown : h.Knows target := (h₁.grows_after later).knows (hh₁.mem_linearize_iff.mp hfirst).1
    exact hh.mem_linearize_iff.mpr ⟨hknown, ((h₁.grows_after later).mixes hmixes).reaches⟩
  · rw [(hh.evolves_setSuperclass cls superclass).sound.ancestors_fst]
    exact (hh.severs_iff.mp hsevers).2.2

/-- A class includes a module, and then its superclass does. The class keeps the module when it is
moved. -/
theorem included_after_move :
    let before : List (Operation Unit) :=
      [.edit (.create "M" none { isModule := true }), .edit (.create "A" none {}),
        .edit (.create "B" (some ⟨1⟩) {}), .edit (.create "C" none {})]
    let later : List (Operation Unit) :=
      [.edit (.addInclude ⟨1⟩ ⟨0⟩), .edit (.setSuperclass ⟨2⟩ ⟨3⟩)]
    let h : Hierarchy Unit := ((empty.after before).addInclude ⟨2⟩ ⟨0⟩).2.after later
    (h.setSuperclass ⟨2⟩ ⟨1⟩).1 = .ok () ∧ (⟨1⟩ : ClassId) ∉ (h.ancestors ⟨2⟩).1 ∧
      (⟨0⟩ : ClassId) ∈ (h.ancestors ⟨2⟩).1 := by
  intro before later h
  have hops : (empty : Hierarchy Unit).Supports
      (before ++ .edit (.addInclude ⟨2⟩ ⟨0⟩) :: later) := by decide +kernel
  have hok : ((empty.after before : Hierarchy Unit).addInclude ⟨2⟩ ⟨0⟩).1 = .ok () := by
    decide +kernel
  obtain ⟨-, hrecorded, hstays, -⟩ := included_after hops hok
  exact ⟨by decide +kernel, by decide +kernel, hstays (hrecorded (by decide +kernel))⟩

/-- A class inherits a module and is asked to include it, which is granted. When the class is moved,
the module is no ancestor any more. -/
theorem included_lost_by_move :
    let before : List (Operation Unit) :=
      [.edit (.create "S" none {}), .edit (.create "M" none { isModule := true }),
        .edit (.addInclude ⟨0⟩ ⟨1⟩), .edit (.create "C" (some ⟨0⟩) {}),
        .edit (.create "T" none {})]
    let later : List (Operation Unit) := [.edit (.setSuperclass ⟨2⟩ ⟨3⟩)]
    (empty : Hierarchy Unit).Supports (before ++ .edit (.addInclude ⟨2⟩ ⟨1⟩) :: later) ∧
      ((empty.after before : Hierarchy Unit).addInclude ⟨2⟩ ⟨1⟩).1 = .ok () ∧
        (⟨1⟩ : ClassId) ∉ ((((empty.after before : Hierarchy Unit).addInclude ⟨2⟩ ⟨1⟩).2.after
          later).ancestors ⟨2⟩).1 := by
  decide +kernel

end Hierarchy

end LateBinding
