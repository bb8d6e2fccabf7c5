import LateBinding.Proofs.Hierarchy.Growth
import LateBinding.Proofs.Hierarchy.Requests

namespace LateBinding

variable {τ : Type}

namespace Hierarchy

variable {h h' : Hierarchy τ}

theorem sound_empty : (empty : Hierarchy τ).Sound := by
  have hnone (id : ClassId) : (empty : Hierarchy τ).get? id = none := rfl
  have hedge (a b : ClassId) : ¬ (empty : Hierarchy τ).Edge a b := by
    simp [edge_iff, hnone]
  refine ⟨.of_rank (fun a b hab => absurd hab (hedge a b)) (fun _ => 0)
    fun a b hab => absurd hab (hedge a b), ?_, ?_, ?_, ?_, ?_⟩
  · intro id r m hr
    cases hr
  · intro id list hlist
    cases hlist
  · intro id g hg
    cases hg
  · intro id r m hr
    cases hr
  · intro o s hs
    cases hs

theorem Sound.isAncestor_eq (hh : h.Sound) (descendant ancestor : ClassId) :
    h.isAncestor descendant ancestor =
      (decide (ancestor ∈ h.linearize descendant), (h.ancestors descendant).2) := by
  simp only [isAncestor, hh.ancestors_fst]

theorem Sound.recalls_isAncestor (hh : h.Sound) (descendant ancestor : ClassId) :
    h.Recalls (h.isAncestor descendant ancestor).2 := by
  rw [hh.isAncestor_eq]
  exact hh.recalls_ancestors descendant

theorem Sound.recalls_wouldCycle (hh : h.Sound) (descendant ancestor : ClassId) :
    h.Recalls (h.wouldCycle descendant ancestor).2 := by
  rw [wouldCycle]
  split
  · exact hh.recalls_refl
  · exact hh.recalls_isAncestor ancestor descendant

/-- An edge is said to close a cycle if its lower end is among the ancestors of the upper one. -/
theorem Sound.wouldCycle_eq (hh : h.Sound) (descendant : ClassId) {ancestor : ClassId}
    (hknown : h.Knows ancestor) : ∃ h₁, h.Recalls h₁ ∧
      h.wouldCycle descendant ancestor = (decide (descendant ∈ h.linearize ancestor), h₁) := by
  refine ⟨_, hh.recalls_wouldCycle descendant ancestor, Prod.ext ?_ rfl⟩
  rw [wouldCycle]
  split
  · rename_i heq
    rw [heq, decide_eq_true (hh.self_mem_linearize hknown)]
  · rw [hh.isAncestor_eq]

theorem Recalls.reaches_iff (hrec : h.Recalls h') {a b : ClassId} :
    h'.Reaches a b ↔ h.Reaches a b := by
  have hedge : h'.Edge = h.Edge := by
    funext a b
    exact propext (edge_congr (shape?_of_forget_eq hrec.forget_eq a))
  rw [Reaches, Reaches, hedge]

/-- A request about a method table publishes a change of it, unless it is refused. -/
theorem Sound.evolves_table (hh : h.Sound) {e : Edit τ} {owner : ClassId}
    (he : e.table? = some owner) : h.Evolves (e.apply h).2 := by
  obtain ⟨h₁, hrec, heq | ⟨f, heq⟩⟩ := hh.table_cases he
  · rw [heq]
    exact hh.evolves_of_recalls hrec
  · rw [heq]
    have hpublishes := hrec.sound.publishes_publishTable owner f
    exact (hh.evolves_of_recalls hrec).trans (hrec.sound.evolves_of_publishes hpublishes)

/-- A module is included unless it is among the ancestors already, or the other way about. -/
theorem Sound.addInclude_eq (hh : h.Sound) {target module : ClassId} {m : Record τ}
    (htarget : h.Knows target) (hm : h.get? module = some m) (hmodule : m.isModule = true) :
    ∃ h₁, h.Recalls h₁ ∧ h.addInclude target module =
      if module ∈ h.linearize target then (.ok (), h₁)
      else if target ∈ h.linearize module then (.error .cyclicInclude, h₁)
      else (.ok (), h₁.regraph target fun r => { r with includes := r.includes ++ [module] }) := by
  obtain ⟨r, hr⟩ := htarget.get?
  have hbelow := hh.recalls_ancestors target
  have hknown : (h.ancestors target).2.Knows module :=
    (knows_iff_of_forget_eq hbelow.forget_eq).mpr (.of_get? hm)
  obtain ⟨h₁, hrec, hasked⟩ := hbelow.sound.wouldCycle_eq target hknown
  rw [hbelow.linearize_eq hh.toStratified] at hasked
  rw [addInclude, hr, hm]
  simp only [hmodule, if_true, hh.isAncestor_eq]
  by_cases hlisted : module ∈ h.linearize target
  · exact ⟨_, hbelow, by simp [hlisted]⟩
  · refine ⟨h₁, hbelow.trans hrec, ?_⟩
    by_cases hback : target ∈ h.linearize module
    · simp [hlisted, hback, hasked]
    · simp [hlisted, hback, hasked, regraph]

/-- A class is moved below another one unless it is among the ancestors of that. -/
theorem Sound.setSuperclass_eq (hh : h.Sound) {cls superclass : ClassId} {r s : Record τ}
    (hr : h.get? cls = some r) (hcls : r.isModule = false) (hs : h.get? superclass = some s)
    (hsuper : s.isModule = false) :
    ∃ h₁, h.Recalls h₁ ∧ h.setSuperclass cls superclass =
      if cls ∈ h.linearize superclass then (.error (.cyclicSuperclass s.name), h₁)
      else (.ok (), h₁.regraph cls fun r => { r with superclass := some superclass }) := by
  obtain ⟨h₁, hrec, hasked⟩ := hh.wouldCycle_eq cls (.of_get? hs)
  refine ⟨h₁, hrec, ?_⟩
  rw [setSuperclass, hr, hs]
  by_cases hback : cls ∈ h.linearize superclass
  · simp [hcls, hsuper, hback, hasked]
  · simp [hcls, hsuper, hback, hasked, regraph]

/-- What becomes of a request to include a module. -/
inductive IncludeOutcome (h : Hierarchy τ) (target module : ClassId) : Prop where
  | refused {h₁ : Hierarchy τ} {f : Fault} (hrec : h.Recalls h₁)
    (heq : h.addInclude target module = (.error f, h₁))
  | listed {h₁ : Hierarchy τ} (hrec : h.Recalls h₁) (hlisted : module ∈ h.linearize target)
    (heq : h.addInclude target module = (.ok (), h₁))
  | added {h₁ : Hierarchy τ} (hrec : h.Recalls h₁) (htarget : h.Knows target)
    (hmodule : h.Knows module) (hnew : module ∉ h.linearize target)
    (hback : ¬ h.Reaches module target) (heq : h.addInclude target module =
      (.ok (), h₁.regraph target fun r => { r with includes := r.includes ++ [module] }))

/-- What becomes of a request to move a class. -/
inductive MoveOutcome (h : Hierarchy τ) (cls superclass : ClassId) : Prop where
  | refused {h₁ : Hierarchy τ} {f : Fault} (hrec : h.Recalls h₁)
    (heq : h.setSuperclass cls superclass = (.error f, h₁))
  | moved {h₁ : Hierarchy τ} {r s : Record τ} (hrec : h.Recalls h₁) (hr : h.get? cls = some r)
    (hcls : r.isModule = false) (hs : h.get? superclass = some s) (hsuper : s.isModule = false)
    (hback : ¬ h.Reaches superclass cls) (heq : h.setSuperclass cls superclass =
      (.ok (), h₁.regraph cls fun r => { r with superclass := some superclass }))

theorem Sound.includeOutcome (hh : h.Sound) (target module : ClassId) :
    IncludeOutcome h target module := by
  cases hr : h.get? target with
  | none => exact .refused hh.recalls_refl (by rw [addInclude, hr])
  | some r =>
    cases hm : h.get? module with
    | none => exact .refused hh.recalls_refl (by rw [addInclude, hr, hm])
    | some m =>
      by_cases hmodule : m.isModule = true
      · obtain ⟨h₁, hrec, heq⟩ := hh.addInclude_eq (.of_get? hr) hm hmodule
        split at heq
        · rename_i hlisted
          exact .listed hrec hlisted heq
        · rename_i hnew
          split at heq
          · exact .refused hrec heq
          · rename_i hback
            refine .added hrec (.of_get? hr) (.of_get? hm) hnew (fun hreach => hback ?_) heq
            exact hh.mem_linearize_iff.mpr ⟨.of_get? hm, hreach⟩
      · exact .refused (f := .notAModule m.name) hh.recalls_refl
          (by simp only [addInclude, hr, hm, if_neg hmodule])

theorem Sound.moveOutcome (hh : h.Sound) (cls superclass : ClassId) :
    MoveOutcome h cls superclass := by
  cases hr : h.get? cls with
  | none => exact .refused hh.recalls_refl (by rw [setSuperclass, hr])
  | some r =>
    cases hs : h.get? superclass with
    | none => exact .refused hh.recalls_refl (by rw [setSuperclass, hr, hs])
    | some s =>
      by_cases hmodule : (r.isModule || s.isModule) = true
      · exact .refused (f := .notAClass s.name) hh.recalls_refl
          (by simp only [setSuperclass, hr, hs, if_pos hmodule])
      · rw [Bool.or_eq_true, not_or, Bool.not_eq_true, Bool.not_eq_true] at hmodule
        obtain ⟨h₁, hrec, heq⟩ := hh.setSuperclass_eq hr hmodule.1 hs hmodule.2
        split at heq
        · exact .refused hrec heq
        · rename_i hback
          refine .moved hrec hr hmodule.1 hs hmodule.2 (fun hreach => hback ?_) heq
          exact hh.mem_linearize_iff.mpr ⟨.of_get? hs, hreach⟩

/-- Whatever a request to include a module comes to, the hierarchy remembers more at most, or else
one record builds on one more module, which does not build on it. -/
theorem Sound.addInclude_cases (hh : h.Sound) (target module : ClassId) :
    h.Recalls (h.addInclude target module).2 ∨
      ∃ h₁, h.Recalls h₁ ∧ h₁.Knows module ∧ ¬ h₁.Reaches module target ∧
        h.addInclude target module =
          (.ok (), h₁.regraph target fun r => { r with includes := r.includes ++ [module] }) := by
  cases hh.includeOutcome target module with
  | refused hrec heq | listed hrec hlisted heq =>
    rw [heq]
    exact .inl hrec
  | added hrec htarget hmodule hnew hback heq =>
    rw [← hrec.reaches_iff] at hback
    exact .inr ⟨_, hrec, (knows_iff_of_forget_eq hrec.forget_eq).mpr hmodule, hback, heq⟩

/-- Whatever a request to move a class comes to, the hierarchy remembers more at most, or else a
class is below another class, which is not below it. -/
theorem Sound.setSuperclass_cases (hh : h.Sound) (cls superclass : ClassId) :
    h.Recalls (h.setSuperclass cls superclass).2 ∨
      ∃ h₁ r s, h.Recalls h₁ ∧ h.get? cls = some r ∧ r.isModule = false ∧
        h.get? superclass = some s ∧ s.isModule = false ∧ ¬ h₁.Reaches superclass cls ∧
          h.setSuperclass cls superclass =
            (.ok (), h₁.regraph cls fun r => { r with superclass := some superclass }) := by
  cases hh.moveOutcome cls superclass with
  | refused hrec heq =>
    rw [heq]
    exact .inl hrec
  | moved hrec hr hcls hs hsuper hback heq =>
    rw [← hrec.reaches_iff] at hback
    exact .inr ⟨_, _, _, hrec, hr, hcls, hs, hsuper, hback, heq⟩

theorem Sound.evolves_addInclude (hh : h.Sound) (target module : ClassId) :
    h.Evolves (h.addInclude target module).2 := by
  rcases hh.addInclude_cases target module with hrec | ⟨h₁, hrec, hknown, hback, heq⟩
  · exact hh.evolves_of_recalls hrec
  · rw [heq]
    refine (hh.evolves_of_recalls hrec).trans
      (hrec.sound.evolves_regraph hknown hback (fun r b hb => ?_) (fun _ => rfl) fun _ => rfl)
    simpa [Record.links, or_assoc] using hb

theorem Sound.evolves_setSuperclass (hh : h.Sound) (cls superclass : ClassId) :
    h.Evolves (h.setSuperclass cls superclass).2 := by
  rcases hh.setSuperclass_cases cls superclass with
    hrec | ⟨h₁, r, s, hrec, -, -, hs, -, hback, heq⟩
  · exact hh.evolves_of_recalls hrec
  · rw [heq]
    have hknown : h₁.Knows superclass := (knows_iff_of_forget_eq hrec.forget_eq).mpr (.of_get? hs)
    refine (hh.evolves_of_recalls hrec).trans
      (hrec.sound.evolves_regraph hknown hback (fun r b hb => ?_) (fun _ => rfl) fun _ => rfl)
    rcases List.mem_append.mp hb with hnew | hold
    · exact .inr (by simpa [eq_comm] using hnew)
    · exact .inl (List.mem_append.mpr (.inr hold))

theorem Sound.evolves_apply (hh : h.Sound) {e : Edit τ} (he : e.NamesKnownSuperclass h) :
    h.Evolves (e.apply h).2 := by
  cases e with
  | create name superclass flags => exact hh.evolves_create name flags he
  | attachToObject o name => exact hh.evolves_attachToObject o name he
  | attachToModule module superclass => exact hh.evolves_attachToModule module he
  | define | remove | undefine | addAlias | setVisibility => exact hh.evolves_table rfl
  | addInclude target module => exact hh.evolves_addInclude target module
  | setSuperclass cls superclass => exact hh.evolves_setSuperclass cls superclass
  | ancestors id => exact hh.evolves_of_recalls (hh.recalls_ancestors id)
  | isAncestor descendant ancestor =>
    exact hh.evolves_of_recalls (hh.recalls_isAncestor descendant ancestor)
  | record id => exact hh.evolves_refl

/-- Along a list of requests, every record that is made has no superclass or one that exists. -/
def Admits (h : Hierarchy τ) : List (Edit τ) → Prop
  | [] => True
  | e :: es => e.NamesKnownSuperclass h ∧ (e.apply h).2.Admits es

instance decidableAdmits (h : Hierarchy τ) : (es : List (Edit τ)) → Decidable (h.Admits es)
  | [] => inferInstanceAs (Decidable True)
  | e :: es =>
    have := decidableAdmits (e.apply h).2 es
    inferInstanceAs (Decidable (_ ∧ _))

theorem admits_append {es fs : List (Edit τ)} :
    h.Admits (es ++ fs) ↔ h.Admits es ∧ (h.run es).Admits fs := by
  induction es generalizing h with
  | nil => simp [Admits, run]
  | cons e es ih => simp only [List.cons_append, Admits, ih, run, List.foldl_cons, and_assoc]

theorem Sound.evolves_run (hh : h.Sound) {es : List (Edit τ)} (hes : h.Admits es) :
    h.Evolves (h.run es) := by
  induction es generalizing h with
  | nil => exact hh.evolves_refl
  | cons e es ih =>
    obtain ⟨he, hrest⟩ := hes
    have hfirst := hh.evolves_apply he
    exact hfirst.trans (ih hfirst.sound hrest)

/-- Every state that requests lead to from nothing is sound. -/
theorem sound_run {es : List (Edit τ)} (hes : (empty : Hierarchy τ).Admits es) :
    (empty.run es : Hierarchy τ).Sound :=
  (sound_empty.evolves_run hes).sound

end Hierarchy

end LateBinding
