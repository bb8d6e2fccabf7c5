import LateBinding.Proofs.Hierarchy.Cycles
import LateBinding.Proofs.Hierarchy.Kin
import LateBinding.Proofs.Hierarchy.Order

namespace LateBinding

open Relation

variable {τ : Type}

namespace Hierarchy

variable {h h' h₁ : Hierarchy τ} {t : ClassId} {f : Record τ → Record τ}

/-- What one record builds on does not matter to those that do not have it among their ancestors. -/
theorem Stratified.linearize_regraph (hh : h.Stratified) (hh' : (h.regraph t f).Stratified)
    {id : ClassId} (hbeside : t ∉ h.linearize id) :
    (h.regraph t f).linearize id = h.linearize id := by
  refine hh.linearize_congr hh' (P := fun a => t ∉ h.linearize a) (fun a ha => ?_)
    (fun a b ha hab hb => ?_) hbeside
  · rw [shape?, shape?, get?_regraph]
    cases hr : h.get? a with
    | none => rfl
    | some r =>
      have hne : t ≠ a := by
        rintro rfl
        exact ha (hh.self_mem_linearize (.of_get? hr))
      simp [hne]
  · obtain ⟨r, hr, -⟩ := edge_iff.mp hab
    exact ha (hh.mem_linearize_iff.mpr ⟨.of_get? hr, .head hab (hh.mem_linearize_iff.mp hb).2⟩)

theorem Recalls.linearize_regraph (hrec : h.Recalls h₁) (hh : h.Stratified)
    (hh' : (h₁.regraph t f).Stratified) {id : ClassId} (hbeside : t ∉ h.linearize id) :
    (h₁.regraph t f).linearize id = h.linearize id := by
  have hsame := hrec.linearize_eq hh id
  rw [hrec.sound.toStratified.linearize_regraph hh' (by rwa [hsame]), hsame]

theorem edge_regraph_include_iff (ht : h.Knows t) {m a b : ClassId} :
    (h.regraph t fun r => { r with includes := r.includes ++ [m] }).Edge a b ↔
      h.EdgeWith t m a b := by
  constructor
  · exact edge_regraph_cases fun r b hb => by simpa [Record.links, or_assoc] using hb
  · rintro (hold | ⟨rfl, rfl⟩)
    · obtain ⟨r, hr, hb⟩ := edge_iff.mp hold
      refine edge_iff.mpr ⟨_, by rw [get?_regraph, hr, Option.map_some], ?_⟩
      by_cases hta : t = a
      · simp only [if_pos hta, Record.links, List.mem_append] at hb ⊢
        exact hb.imp_right .inl
      · rw [if_neg hta]
        exact hb
    · obtain ⟨r, hr⟩ := ht.get?
      refine edge_iff.mpr ⟨_, by rw [get?_regraph, hr, Option.map_some], ?_⟩
      simp [Record.links]

theorem reaches_regraph_include_iff (ht : h.Knows t) {m a b : ClassId} :
    (h.regraph t fun r => { r with includes := r.includes ++ [m] }).Reaches a b ↔
      h.Reaches a b ∨ h.Reaches a t ∧ h.Reaches m b := by
  rw [← reflTransGen_edgeWith_iff, Reaches]
  have hedge : (h.regraph t fun r => { r with includes := r.includes ++ [m] }).Edge =
      h.EdgeWith t m := by
    funext a b
    exact propext (edge_regraph_include_iff ht)
  rw [hedge]

/-- An included module adds its ancestors where its includer is an ancestor, and nothing else. -/
theorem Sound.mem_linearize_addInclude (hh : h.Sound) {target module : ClassId}
    (hok : (h.addInclude target module).1 = .ok ()) {id x : ClassId} :
    x ∈ (h.addInclude target module).2.linearize id ↔
      x ∈ h.linearize id ∨ target ∈ h.linearize id ∧ x ∈ h.linearize module := by
  have hh' := (hh.evolves_addInclude target module).sound
  cases hh.includeOutcome target module with
  | refused hrec heq =>
    rw [heq] at hok
    cases hok
  | listed hrec hlisted heq =>
    rw [heq, hrec.linearize_eq hh.toStratified]
    simp only [hh.mem_linearize_iff] at hlisted ⊢
    refine ⟨.inl, ?_⟩
    rintro (hold | ⟨hup, hdown⟩)
    · exact hold
    · exact ⟨hup.1, hup.2.trans (hlisted.2.trans hdown.2)⟩
  | added hrec htarget hmodule hnew hback heq =>
    rename_i h₁
    have hknows {a : ClassId} : h₁.Knows a ↔ h.Knows a := knows_iff_of_forget_eq hrec.forget_eq
    rw [heq] at hh' ⊢
    simp only [hh'.mem_linearize_iff, hh.mem_linearize_iff, knows_regraph,
      reaches_regraph_include_iff (hknows.mpr htarget), hrec.reaches_iff, hknows]
    tauto

theorem Sound.linearize_addInclude (hh : h.Sound) {target module id : ClassId}
    (hok : (h.addInclude target module).1 = .ok ()) (hbeside : target ∉ h.linearize id) :
    (h.addInclude target module).2.linearize id = h.linearize id := by
  have hh' := (hh.evolves_addInclude target module).sound
  cases hh.includeOutcome target module with
  | refused hrec heq =>
    rw [heq] at hok
    cases hok
  | listed hrec hlisted heq =>
    rw [heq]
    exact hrec.linearize_eq hh.toStratified id
  | added hrec htarget hmodule hnew hback heq =>
    rw [heq] at hh' ⊢
    exact hrec.linearize_regraph hh.toStratified hh'.toStratified hbeside

theorem Sound.linearize_setSuperclass (hh : h.Sound) {cls superclass id : ClassId}
    (hok : (h.setSuperclass cls superclass).1 = .ok ()) (hbeside : cls ∉ h.linearize id) :
    (h.setSuperclass cls superclass).2.linearize id = h.linearize id := by
  have hh' := (hh.evolves_setSuperclass cls superclass).sound
  cases hh.moveOutcome cls superclass with
  | refused hrec heq =>
    rw [heq] at hok
    cases hok
  | moved hrec hr hcls hs hsuper hback heq =>
    rw [heq] at hh' ⊢
    exact hrec.linearize_regraph hh.toStratified hh'.toStratified hbeside

/-- A class that is moved inherits all that its new superclass has listed. -/
theorem Sound.suffix_setSuperclass (hh : h.Sound) {cls superclass : ClassId}
    (hok : (h.setSuperclass cls superclass).1 = .ok ()) :
    (h.setSuperclass cls superclass).2.linearize superclass = h.linearize superclass ∧
      h.linearize superclass <:+ (h.setSuperclass cls superclass).2.linearize cls := by
  have hh' := (hh.evolves_setSuperclass cls superclass).sound
  cases hh.moveOutcome cls superclass with
  | refused hrec heq =>
    rw [heq] at hok
    cases hok
  | moved hrec hr hcls hs hsuper hback heq =>
    rename_i h₁ r s
    have hsame : (h.setSuperclass cls superclass).2.linearize superclass =
        h.linearize superclass :=
      hh.linearize_setSuperclass hok fun hmem => hback (hh.mem_linearize_iff.mp hmem).2
    obtain ⟨r₁, hr₁⟩ := ((knows_iff_of_forget_eq hrec.forget_eq).mpr (.of_get? hr)).get?
    have hmoved : (h.setSuperclass cls superclass).2.get? cls =
        some { r₁ with superclass := some superclass, stamp := h₁.generation + 1 } := by
      rw [heq, get?_regraph, hr₁]
      simp
    exact ⟨hsame, hsame ▸ hh'.superclass_suffix hmoved rfl⟩

/-- The second hierarchy has the methods and the singleton classes of the first one. -/
structure KeepsTables (h h' : Hierarchy τ) : Prop where
  methods_eq : ∀ id, (h'.get? id).map Record.methods = (h.get? id).map Record.methods
  metaclass_eq : ∀ id, (h'.get? id).map Record.metaclass = (h.get? id).map Record.metaclass
  objects_eq : h'.objectSingletons = h.objectSingletons

theorem Recalls.keepsTables (hrec : h.Recalls h') : h.KeepsTables h' where
  methods_eq := map_get?_of_forget_eq (fun _ => rfl) hrec.forget_eq
  metaclass_eq := map_get?_of_forget_eq (fun _ => rfl) hrec.forget_eq
  objects_eq := objectSingletons_of_forget_eq hrec.forget_eq

theorem Recalls.keepsTables_regraph (hrec : h.Recalls h₁) (t : ClassId)
    (hmethods : ∀ r, (f r).methods = r.methods) (hmetaclass : ∀ r, (f r).metaclass = r.metaclass) :
    h.KeepsTables (h₁.regraph t f) where
  methods_eq id :=
    (map_get?_regraph hmethods (fun _ _ => rfl) t id).trans (hrec.keepsTables.methods_eq id)
  metaclass_eq id :=
    (map_get?_regraph hmetaclass (fun _ _ => rfl) t id).trans (hrec.keepsTables.metaclass_eq id)
  objects_eq := hrec.keepsTables.objects_eq

theorem Sound.keepsTables_addInclude (hh : h.Sound) (target module : ClassId) :
    h.KeepsTables (h.addInclude target module).2 := by
  rcases hh.addInclude_cases target module with hrec | ⟨h₁, hrec, -, -, heq⟩
  · exact hrec.keepsTables
  · rw [heq]
    exact hrec.keepsTables_regraph target (fun _ => rfl) fun _ => rfl

theorem Sound.keepsTables_setSuperclass (hh : h.Sound) (cls superclass : ClassId) :
    h.KeepsTables (h.setSuperclass cls superclass).2 := by
  rcases hh.setSuperclass_cases cls superclass with hrec | ⟨h₁, -, -, hrec, -, -, -, -, -, heq⟩
  · exact hrec.keepsTables
  · rw [heq]
    exact hrec.keepsTables_regraph cls (fun _ => rfl) fun _ => rfl

/-- Whatever was done with a hierarchy, a record keeps its list of ancestors when another one is
given a module or a superclass that it does not have among them. Otherwise, an included module adds
its ancestors to those that the record had, and a class that is moved has the list of its new
superclass, which stays as it was, at the end of its own. No request for a new edge touches a method
table or a singleton class. -/
theorem new_edge_after {ops : List (Operation τ)} (hops : (empty : Hierarchy τ).Supports ops) :
    let h : Hierarchy τ := empty.after ops
    (∀ target module, (h.addInclude target module).1 = .ok () →
      let h' := (h.addInclude target module).2
      ∀ id, (h.ancestors id).1 ⊆ (h'.ancestors id).1 ∧
        if target ∈ (h.ancestors id).1 then
          ∀ x, x ∈ (h'.ancestors id).1 ↔ x ∈ (h.ancestors id).1 ∨ x ∈ (h.ancestors module).1
        else (h'.ancestors id).1 = (h.ancestors id).1) ∧
      (∀ cls superclass, (h.setSuperclass cls superclass).1 = .ok () →
        let h' := (h.setSuperclass cls superclass).2
        (∀ id, cls ∉ (h.ancestors id).1 → (h'.ancestors id).1 = (h.ancestors id).1) ∧
          (h'.ancestors superclass).1 = (h.ancestors superclass).1 ∧
            (h.ancestors superclass).1 <:+ (h'.ancestors cls).1) ∧
      (∀ target module, h.KeepsTables (h.addInclude target module).2) ∧
        ∀ cls superclass, h.KeepsTables (h.setSuperclass cls superclass).2 := by
  intro h
  have hh : h.Sound := sound_after hops
  refine ⟨fun target module hok => ?_, fun cls superclass hok => ?_, hh.keepsTables_addInclude,
    hh.keepsTables_setSuperclass⟩
  · intro h' id
    have hh' : h'.Sound := (hh.evolves_addInclude target module).sound
    have hmem {x : ClassId} : x ∈ h'.linearize id ↔
        x ∈ h.linearize id ∨ target ∈ h.linearize id ∧ x ∈ h.linearize module :=
      hh.mem_linearize_addInclude hok
    simp only [hh.ancestors_fst, hh'.ancestors_fst]
    refine ⟨fun x hx => hmem.mpr (.inl hx), ?_⟩
    split
    · rename_i hbelow
      intro x
      rw [hmem, and_iff_right hbelow]
    · rename_i hbeside
      exact hh.linearize_addInclude hok hbeside
  · intro h'
    have hh' : h'.Sound := (hh.evolves_setSuperclass cls superclass).sound
    simp only [hh.ancestors_fst, hh'.ancestors_fst]
    exact ⟨fun id hbeside => hh.linearize_setSuperclass hok hbeside, hh.suffix_setSuperclass hok⟩

/-- A class has a module that its superclass is given later, by way of another module. The class
keeps the module, now as an inherited one, and gets the other. A class beside them keeps its list,
until it is moved below the first one. -/
theorem new_edge_after_module_of_subclass :
    let ops : List (Operation Unit) :=
      [.edit (.create "K" none { isModule := true }), .edit (.create "M" none { isModule := true }),
        .edit (.create "A" none {}), .edit (.create "B" (some ⟨2⟩) {}),
        .edit (.create "C" none {}), .edit (.addInclude ⟨1⟩ ⟨0⟩), .edit (.addInclude ⟨3⟩ ⟨0⟩)]
    let h : Hierarchy Unit := empty.after ops
    let h' := (h.addInclude ⟨2⟩ ⟨1⟩).2
    (h.ancestors ⟨3⟩).1 = [⟨3⟩, ⟨0⟩, ⟨2⟩] ∧
      (∀ x, x ∈ (h'.ancestors ⟨3⟩).1 ↔ x ∈ (h.ancestors ⟨3⟩).1 ∨ x ∈ (h.ancestors ⟨1⟩).1) ∧
        (h'.ancestors ⟨4⟩).1 = (h.ancestors ⟨4⟩).1 ∧ h.KeepsTables h' ∧
          (h.ancestors ⟨3⟩).1 <:+ ((h.setSuperclass ⟨4⟩ ⟨3⟩).2.ancestors ⟨4⟩).1 := by
  intro ops h h'
  have hops : (empty : Hierarchy Unit).Supports ops := by decide +kernel
  have hok : (h.addInclude ⟨2⟩ ⟨1⟩).1 = .ok () := by decide +kernel
  have hmoved : (h.setSuperclass ⟨4⟩ ⟨3⟩).1 = .ok () := by decide +kernel
  obtain ⟨hinclude, hmove, hkeeps, -⟩ := new_edge_after hops
  have hbelow := (hinclude ⟨2⟩ ⟨1⟩ hok ⟨3⟩).2
  have hbeside := (hinclude ⟨2⟩ ⟨1⟩ hok ⟨4⟩).2
  rw [if_pos (by decide +kernel)] at hbelow
  rw [if_neg (by decide +kernel)] at hbeside
  exact ⟨by decide +kernel, hbelow, hbeside, hkeeps ⟨2⟩ ⟨1⟩, (hmove ⟨4⟩ ⟨3⟩ hmoved).2.2⟩

end Hierarchy

end LateBinding
