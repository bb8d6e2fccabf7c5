import LateBinding.Proofs.Hierarchy.Listing
import LateBinding.Proofs.Hierarchy.NewEdges
import LateBinding.Proofs.Hierarchy.Stamping
import LateBinding.Proofs.Hierarchy.Tables

namespace LateBinding

open Relation

variable {τ : Type}

namespace Hierarchy

variable {h h' : Hierarchy τ} {cls superclass a b : ClassId}

/-- One record builds directly on another, where the superclass of a given class does not count. -/
def EdgeBeside (h : Hierarchy τ) (cls a b : ClassId) : Prop :=
  ∃ r, h.get? a = some r ∧ (a ≠ cls ∧ r.superclass = some b ∨ b ∈ r.includes)

/-- One record builds on another, or is the same, without the superclass of a given class. -/
def ReachesBeside (h : Hierarchy τ) (cls : ClassId) : ClassId → ClassId → Prop :=
  ReflTransGen (h.EdgeBeside cls)

/-- Moving a class below another one takes a record from the ancestors of one that had it. -/
structure Severs (h : Hierarchy τ) (cls superclass a b : ClassId) : Prop where
  granted : (h.setSuperclass cls superclass).1 = .ok ()
  mem : b ∈ (h.ancestors a).1
  only : ¬ h.ReachesBeside cls a b
  not_mem : b ∉ (h.ancestors superclass).1

theorem EdgeBeside.edge (hab : h.EdgeBeside cls a b) : h.Edge a b := by
  obtain ⟨r, hr, ⟨-, hsuper⟩ | hmem⟩ := hab
  · exact edge_of_superclass hr hsuper
  · exact edge_iff.mpr ⟨r, hr, List.mem_append_right _ hmem⟩

theorem edgeBeside_of_ne (hne : a ≠ cls) (hab : h.Edge a b) : h.EdgeBeside cls a b := by
  obtain ⟨r, hr, hb⟩ := edge_iff.mp hab
  exact ⟨r, hr, (List.mem_append.mp hb).imp (fun hb => ⟨hne, Option.mem_toList.mp hb⟩) id⟩

theorem ReachesBeside.reaches (hab : h.ReachesBeside cls a b) : h.Reaches a b :=
  ReflTransGen.mono (fun _ _ => EdgeBeside.edge) _ _ hab

/-- A path to the class need not go on from it. -/
theorem reachesBeside_self (hup : h.Reaches a cls) : h.ReachesBeside cls a cls := by
  induction hup using ReflTransGen.head_induction_on with
  | refl => exact .refl
  | @head x y hedge _ ih =>
    by_cases hx : x = cls
    · subst hx
      exact .refl
    · exact .head (edgeBeside_of_ne hx hedge) ih

/-- A path that never comes to the class does not need its superclass. -/
theorem reachesBeside_of_not_reaches (hnot : ¬ h.Reaches a cls) (hab : h.Reaches a b) :
    h.ReachesBeside cls a b := by
  induction hab using ReflTransGen.head_induction_on with
  | refl => exact .refl
  | @head x y hedge _ ih =>
    have hne : x ≠ cls := by
      rintro rfl
      exact hnot .refl
    exact .head (edgeBeside_of_ne hne hedge) (ih fun hreach => hnot (.head hedge hreach))

theorem edgeBeside_of_forget_eq (hforget : h'.forget = h.forget) (hab : h.EdgeBeside cls a b) :
    h'.EdgeBeside cls a b := by
  obtain ⟨r, hr, hcases⟩ := hab
  obtain ⟨r', hr', hsame⟩ := get?_of_forget_eq hforget.symm hr
  obtain ⟨hsuper, hincludes, -⟩ := links_of_forget_eq hsame
  exact ⟨r', hr', by rwa [← hsuper, ← hincludes]⟩

theorem reachesBeside_of_forget_eq (hforget : h'.forget = h.forget) :
    h'.ReachesBeside cls a b ↔ h.ReachesBeside cls a b := by
  constructor <;> refine ReflTransGen.mono (fun _ _ hab => ?_) _ _
  · exact edgeBeside_of_forget_eq hforget.symm hab
  · exact edgeBeside_of_forget_eq hforget hab

theorem edge_regraph_superclass_iff (hcls : h.Knows cls) :
    (h.regraph cls fun r => { r with superclass := some superclass }).Edge a b ↔
      h.EdgeBeside cls a b ∨ a = cls ∧ b = superclass := by
  rw [edge_iff]
  constructor
  · rintro ⟨r', hr', hb⟩
    rw [get?_regraph] at hr'
    obtain ⟨r, hr, rfl⟩ := Option.map_eq_some_iff.mp hr'
    by_cases ha : cls = a
    · simp only [if_pos ha] at hb
      rcases List.mem_append.mp hb with hb | hb
      · exact .inr ⟨ha.symm, by simpa [eq_comm] using hb⟩
      · exact .inl ⟨r, hr, .inr hb⟩
    · simp only [if_neg ha] at hb
      exact .inl (edgeBeside_of_ne (Ne.symm ha) (edge_iff.mpr ⟨r, hr, hb⟩))
  · rintro (⟨r, hr, hcases⟩ | ⟨rfl, rfl⟩)
    · refine ⟨_, by rw [get?_regraph, hr, Option.map_some], ?_⟩
      rcases hcases with ⟨hne, hsuper⟩ | hb
      · rw [if_neg hne.symm]
        exact List.mem_append_left _ (Option.mem_toList.mpr hsuper)
      · split <;> exact List.mem_append_right _ hb
    · obtain ⟨r, hr⟩ := hcls.get?
      exact ⟨_, by rw [get?_regraph, hr, Option.map_some], by simp [Record.links]⟩

/-- When a class is moved, a record keeps the ancestors that it has without the superclass of the
class, and gets those of the new superclass if the class is among its own. -/
theorem Sound.mem_linearize_setSuperclass (hh : h.Sound)
    (hok : (h.setSuperclass cls superclass).1 = .ok ()) {x : ClassId} :
    x ∈ (h.setSuperclass cls superclass).2.linearize a ↔
      h.Knows a ∧ h.ReachesBeside cls a x ∨ cls ∈ h.linearize a ∧ x ∈ h.linearize superclass := by
  have hh' := (hh.evolves_setSuperclass cls superclass).sound
  cases hh.moveOutcome cls superclass with
  | refused hrec heq =>
    rw [heq] at hok
    cases hok
  | moved hrec hr hcls hs hsuper hback heq =>
    rename_i h₁ r s
    have hknows {x : ClassId} : h₁.Knows x ↔ h.Knows x := knows_iff_of_forget_eq hrec.forget_eq
    have hbeside {x y : ClassId} : h₁.ReachesBeside cls x y ↔ h.ReachesBeside cls x y :=
      reachesBeside_of_forget_eq hrec.forget_eq
    have hedge : (h₁.regraph cls fun r => { r with superclass := some superclass }).Edge =
        fun a b => h₁.EdgeBeside cls a b ∨ a = cls ∧ b = superclass := by
      funext a b
      exact propext (edge_regraph_superclass_iff (hknows.mpr (.of_get? hr)))
    rw [heq] at hh' ⊢
    rw [hh'.mem_linearize_iff, hh.mem_linearize_iff, hh.mem_linearize_iff, knows_regraph, hknows,
      Reaches, hedge, reflTransGen_or_iff]
    have hup : h₁.ReachesBeside cls a cls ↔ h.Reaches a cls :=
      hbeside.trans ⟨ReachesBeside.reaches, reachesBeside_self⟩
    have hdown : h₁.ReachesBeside cls superclass x ↔ h.Reaches superclass x :=
      hbeside.trans ⟨ReachesBeside.reaches, reachesBeside_of_not_reaches hback⟩
    have hhead : h.Knows superclass := .of_get? hs
    rw [← ReachesBeside, hbeside, hup, hdown]
    tauto

/-- Moving a class loses exactly what could be reached by way of its old superclass alone and is not
brought by the new one. -/
theorem Sound.severs_iff (hh : h.Sound) : h.Severs cls superclass a b ↔
    (h.setSuperclass cls superclass).1 = .ok () ∧ b ∈ h.linearize a ∧
      b ∉ (h.setSuperclass cls superclass).2.linearize a := by
  constructor
  · rintro ⟨hok, hmem, honly, hnot⟩
    rw [hh.ancestors_fst] at hmem hnot
    refine ⟨hok, hmem, fun hstill => ?_⟩
    rcases (hh.mem_linearize_setSuperclass hok).mp hstill with ⟨-, hbeside⟩ | ⟨-, hnew⟩
    · exact honly hbeside
    · exact hnot hnew
  · rintro ⟨hok, hmem, hlost⟩
    rw [hh.mem_linearize_setSuperclass hok, not_or] at hlost
    obtain ⟨hknown, hreach⟩ := hh.mem_linearize_iff.mp hmem
    have honly : ¬ h.ReachesBeside cls a b := fun hbeside => hlost.1 ⟨hknown, hbeside⟩
    have hup : h.Reaches a cls := by
      by_contra hnot
      exact honly (reachesBeside_of_not_reaches hnot hreach)
    refine ⟨hok, by rwa [hh.ancestors_fst], honly, fun hnew => ?_⟩
    rw [hh.ancestors_fst] at hnew
    exact hlost.2 ⟨hh.mem_linearize_iff.mpr ⟨hknown, hup⟩, hnew⟩

theorem granted_addInclude {target module : ClassId} {result : Edited}
    (hok : ((Edit.addInclude target module).apply h).1 = .ok result) :
    (h.addInclude target module).1 = .ok () := by
  cases houtcome : (h.addInclude target module).1 with
  | ok => rfl
  | error f => simp [Edit.apply, Edit.finished, houtcome, Except.map] at hok

theorem granted_setSuperclass {result : Edited}
    (hok : ((Edit.setSuperclass cls superclass).apply h).1 = .ok result) :
    (h.setSuperclass cls superclass).1 = .ok () := by
  cases houtcome : (h.setSuperclass cls superclass).1 with
  | ok => rfl
  | error f => simp [Edit.apply, Edit.finished, houtcome, Except.map] at hok

/-- One step loses nothing, unless it moves a class. -/
theorem Sound.mem_linearize_or_severs (hh : h.Sound) {op : Operation τ}
    (hop : op.NamesKnownClasses h) (hmem : b ∈ h.linearize a) :
    b ∈ (op.apply h).2.linearize a ∨
      ∃ cls superclass, op = .edit (.setSuperclass cls superclass) ∧
        h.Severs cls superclass a b := by
  by_cases hwrites : op.Writes h
  · cases op with
    | edit e =>
      obtain ⟨⟨result, hok⟩, htable | hedge⟩ := hwrites
      · obtain ⟨owner, he⟩ := Option.isSome_iff_exists.mp htable
        have hsame := (hh.sameBeside_apply he).linearize_eq a
        exact .inl (by rwa [← hsame] at hmem)
      · cases e with
        | addInclude target module =>
          exact .inl ((hh.mem_linearize_addInclude (granted_addInclude hok)).mpr (.inl hmem))
        | setSuperclass cls superclass =>
          by_cases hstill : b ∈ (h.setSuperclass cls superclass).2.linearize a
          · exact .inl hstill
          · exact .inr ⟨cls, superclass, rfl,
              hh.severs_iff.mpr ⟨granted_setSuperclass hok, hmem, hstill⟩⟩
        | _ => cases hedge
    | _ => cases hwrites
  · have hknown : h.Knows a := (hh.mem_linearize_iff.mp hmem).1
    have hstamps := hh.stampsNone_operation hop hwrites
    obtain ⟨g, hg⟩ := stampOf?_of_knows hknown
    have hsame := (hh.evolves_operation hop).same hg ((hstamps.stampOf?_eq hknown).trans hg)
    exact .inl (by rwa [hsame.linearize_eq])

/-- Along a run, what has got lost was lost when a class was moved. -/
theorem Sound.severed_of_lost (hh : h.Sound) {ops : List (Operation τ)} (hops : h.Supports ops)
    (hmem : b ∈ h.linearize a) (hlost : b ∉ (h.after ops).linearize a) :
    ∃ pre cls superclass post, ops = pre ++ .edit (.setSuperclass cls superclass) :: post ∧
      (h.after pre).Severs cls superclass a b := by
  rcases hh.kept_or (P := fun h => b ∈ h.linearize a) (fun hh hop => hh.mem_linearize_or_severs hop)
    hops hmem with hstill | ⟨pre, op, post, rfl, cls, superclass, rfl, hsevers⟩
  · exact absurd hstill hlost
  · exact ⟨pre, cls, superclass, post, rfl, hsevers⟩

end Hierarchy

end LateBinding
