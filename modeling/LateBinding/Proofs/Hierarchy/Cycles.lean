import LateBinding.Proofs.Hierarchy.Depth

namespace LateBinding

open Relation

variable {τ : Type}

namespace Hierarchy

variable {h : Hierarchy τ}

/-- One record builds directly on another, or the two are the ends of one more edge. -/
def EdgeWith (h : Hierarchy τ) (tail head a b : ClassId) : Prop := h.Edge a b ∨ a = tail ∧ b = head

/-- With one more edge, some record builds on itself. -/
def ClosesCycle (h : Hierarchy τ) (tail head : ClassId) : Prop :=
  ∃ a, TransGen (h.EdgeWith tail head) a a

theorem edgeWith_self (h : Hierarchy τ) (tail head : ClassId) : h.EdgeWith tail head tail head :=
  .inr ⟨rfl, rfl⟩

/-- A path that takes the new edge more than once can be cut short: it comes to the tail, and goes on
from the head. -/
theorem reflTransGen_or_iff {edge : ClassId → ClassId → Prop} {tail head a b : ClassId} :
    ReflTransGen (fun a b => edge a b ∨ a = tail ∧ b = head) a b ↔
      ReflTransGen edge a b ∨ ReflTransGen edge a tail ∧ ReflTransGen edge head b := by
  constructor
  · intro hpath
    induction hpath with
    | refl => exact .inl .refl
    | tail _ hedge ih =>
      rcases hedge with hold | ⟨rfl, rfl⟩
      · exact ih.imp (·.tail hold) fun hback => ⟨hback.1, hback.2.tail hold⟩
      · exact .inr ⟨ih.elim (fun hreach => hreach) (·.1), .refl⟩
  · have hold {a b : ClassId} (hab : ReflTransGen edge a b) :
        ReflTransGen (fun a b => edge a b ∨ a = tail ∧ b = head) a b :=
      ReflTransGen.mono (fun _ _ => .inl) _ _ hab
    rintro (hreach | ⟨hup, hdown⟩)
    · exact hold hreach
    · exact ((hold hup).tail (.inr ⟨rfl, rfl⟩)).trans (hold hdown)

theorem reflTransGen_edgeWith_iff {tail head a b : ClassId} :
    ReflTransGen (h.EdgeWith tail head) a b ↔
      h.Reaches a b ∨ h.Reaches a tail ∧ h.Reaches head b :=
  reflTransGen_or_iff

theorem closesCycle_iff_reaches (hacyclic : ∀ a, ¬ TransGen h.Edge a a) {tail head : ClassId} :
    h.ClosesCycle tail head ↔ h.Reaches head tail := by
  constructor
  · rintro ⟨a, hcycle⟩
    obtain ⟨b, hedge, hback⟩ := TransGen.head'_iff.mp hcycle
    have hpaths := reflTransGen_edgeWith_iff.mp hback
    rcases hedge with hold | ⟨rfl, rfl⟩
    · rcases hpaths with hba | ⟨hbt, hha⟩
      · exact absurd (TransGen.head' hold hba) (hacyclic a)
      · exact hha.trans (.head hold hbt)
    · exact hpaths.elim (fun hreach => hreach) (·.1)
  · intro hback
    exact ⟨tail, .head' (h.edgeWith_self tail head) (reflTransGen_edgeWith_iff.mpr (.inl hback))⟩

theorem Stratified.closesCycle_iff (hh : h.Stratified) {tail head : ClassId}
    (hhead : h.Knows head) : h.ClosesCycle tail head ↔ tail ∈ h.linearize head := by
  rw [closesCycle_iff_reaches hh.acyclic, hh.mem_linearize_iff, and_iff_right hhead]

/-- A request is refused by an argument fault under a condition, and is granted otherwise. -/
def RefusedIff (p : Prop) (outcome : Except Fault Unit) : Prop :=
  (p → ∃ f, outcome = .error f ∧ f.kind = .argument) ∧ (¬ p → outcome = .ok ())

theorem RefusedIff.refused {p : Prop} (hp : p) {f : Fault} (hkind : f.kind = .argument) :
    RefusedIff p (.error f) :=
  ⟨fun _ => ⟨f, rfl, hkind⟩, fun hnot => absurd hp hnot⟩

theorem RefusedIff.granted {p : Prop} (hp : ¬ p) : RefusedIff p (.ok ()) :=
  ⟨fun h => absurd h hp, fun _ => rfl⟩

/-- Whatever was done with a hierarchy, an edge closes a cycle exactly if its ends are the same or
its tail is an ancestor of its head. A class is moved below another one unless this closes a cycle,
and then the request is refused. A module is included in another record unless this closes a cycle,
with the same refusal; but to include a module in itself is answered as done, and changes nothing. -/
theorem cycles_refused_after {ops : List (Operation τ)} (hops : (empty : Hierarchy τ).Supports ops) :
    let h : Hierarchy τ := empty.after ops
    (∀ tail head, h.Knows head →
      (h.ClosesCycle tail head ↔ tail = head ∨ tail ∈ (h.ancestors head).1)) ∧
      (∀ cls superclass r s, h.get? cls = some r → r.isModule = false →
        h.get? superclass = some s → s.isModule = false →
          RefusedIff (h.ClosesCycle cls superclass) (h.setSuperclass cls superclass).1) ∧
      (∀ target module m, h.Knows target → h.get? module = some m → m.isModule = true →
        RefusedIff (h.ClosesCycle target module ∧ target ≠ module)
          (h.addInclude target module).1) ∧
      ∀ module m, h.get? module = some m → m.isModule = true →
        (h.addInclude module module).1 = .ok () ∧
          (h.addInclude module module).2.forget = h.forget := by
  intro h
  have hh : h.Sound := sound_after hops
  refine ⟨fun tail head hhead => ?_, fun cls superclass r s hr hcls hs hsuper => ?_,
    fun target module m htarget hm hmodule => ?_, fun module m hm hmodule => ?_⟩
  · rw [hh.closesCycle_iff hhead, hh.ancestors_fst]
    refine ⟨.inr, ?_⟩
    rintro (rfl | hmem)
    · exact hh.self_mem_linearize hhead
    · exact hmem
  · obtain ⟨h₁, -, heq⟩ := hh.setSuperclass_eq hr hcls hs hsuper
    rw [heq, hh.closesCycle_iff (.of_get? hs)]
    split
    · rename_i hback
      exact .refused hback rfl
    · rename_i hback
      exact .granted hback
  · obtain ⟨h₁, -, heq⟩ := hh.addInclude_eq htarget hm hmodule
    rw [heq, hh.closesCycle_iff (.of_get? hm)]
    split
    · -- Of two records that are each among the ancestors of the other, there is only one.
      rename_i hlisted
      refine .granted fun hback => hback.2 ?_
      exact hh.eq_of_reaches (hh.mem_linearize_iff.mp hlisted).2 (hh.mem_linearize_iff.mp hback.1).2
    · rename_i hlisted
      split
      · rename_i hback
        refine .refused ⟨hback, fun heq => hlisted ?_⟩ rfl
        rw [heq]
        exact hh.self_mem_linearize (.of_get? hm)
      · rename_i hback
        exact .granted fun hcycle => hback hcycle.1
  · obtain ⟨h₁, hrec, heq⟩ := hh.addInclude_eq (.of_get? hm) hm hmodule
    rw [heq, if_pos (hh.self_mem_linearize (.of_get? hm))]
    exact ⟨rfl, hrec.forget_eq⟩

/-- A module that builds on another one is mixed into a class. The module cannot be included in the
one on which it builds, and the class cannot be moved below a class that inherits from it. -/
theorem cycles_refused_after_include :
    let ops : List (Operation Unit) :=
      [.edit (.create "K" none { isModule := true }), .edit (.create "M" none { isModule := true }),
        .edit (.create "A" none {}), .edit (.create "B" (some ⟨2⟩) {}),
        .edit (.addInclude ⟨1⟩ ⟨0⟩), .edit (.addInclude ⟨2⟩ ⟨1⟩)]
    let h : Hierarchy Unit := empty.after ops
    h.ClosesCycle ⟨0⟩ ⟨1⟩ ∧ (∃ f, (h.addInclude ⟨0⟩ ⟨1⟩).1 = .error f ∧ f.kind = .argument) ∧
      (∃ f, (h.setSuperclass ⟨2⟩ ⟨3⟩).1 = .error f ∧ f.kind = .argument) ∧
        (h.setSuperclass ⟨3⟩ ⟨2⟩).1 = .ok () ∧ (h.addInclude ⟨1⟩ ⟨1⟩).1 = .ok () := by
  intro ops h
  have hops : (empty : Hierarchy Unit).Supports ops := by decide +kernel
  have hflag (id : ClassId) (b : Bool) (hid : (h.get? id).map Record.isModule = some b) :
      ∃ r, h.get? id = some r ∧ r.isModule = b := Option.map_eq_some_iff.mp hid
  obtain ⟨m, hm, hmodule⟩ := hflag ⟨1⟩ true (by decide +kernel)
  obtain ⟨r, hr, hcls⟩ := hflag ⟨2⟩ false (by decide +kernel)
  obtain ⟨s, hs, hsub⟩ := hflag ⟨3⟩ false (by decide +kernel)
  obtain ⟨hcloses, hmove, hinclude, hself⟩ := cycles_refused_after hops
  have hknown : h.Knows ⟨0⟩ := by decide +kernel
  have hup : h.ClosesCycle ⟨0⟩ ⟨1⟩ :=
    (hcloses ⟨0⟩ ⟨1⟩ (.of_get? hm)).mpr (.inr (by decide +kernel))
  have hdown : h.ClosesCycle ⟨2⟩ ⟨3⟩ :=
    (hcloses ⟨2⟩ ⟨3⟩ (.of_get? hs)).mpr (.inr (by decide +kernel))
  have hfree : ¬ h.ClosesCycle ⟨3⟩ ⟨2⟩ := by
    rw [hcloses ⟨3⟩ ⟨2⟩ (.of_get? hr)]
    decide +kernel
  exact ⟨hup, (hinclude ⟨0⟩ ⟨1⟩ m hknown hm hmodule).1 ⟨hup, by decide⟩,
    (hmove ⟨2⟩ ⟨3⟩ r s hr hcls hs hsub).1 hdown, (hmove ⟨3⟩ ⟨2⟩ s r hs hsub hr hcls).2 hfree,
    (hself ⟨1⟩ m hm hmodule).1⟩

/-- The edge from a module to itself closes a cycle, but a request for it is not refused. -/
theorem include_in_itself_not_refused :
    let h : Hierarchy Unit := empty.after [.edit (.create "M" none { isModule := true })]
    (empty : Hierarchy Unit).Supports [.edit (.create "M" none { isModule := true })] ∧
      (h.get? ⟨0⟩).map Record.isModule = some true ∧ h.ClosesCycle ⟨0⟩ ⟨0⟩ ∧
        (h.addInclude ⟨0⟩ ⟨0⟩).1 = .ok () ∧
          ¬ RefusedIff (h.ClosesCycle ⟨0⟩ ⟨0⟩) (h.addInclude ⟨0⟩ ⟨0⟩).1 := by
  intro h
  have hcycle : h.ClosesCycle ⟨0⟩ ⟨0⟩ := ⟨⟨0⟩, .single (h.edgeWith_self ⟨0⟩ ⟨0⟩)⟩
  have hok : (h.addInclude ⟨0⟩ ⟨0⟩).1 = .ok () := by decide +kernel
  refine ⟨by decide +kernel, by decide +kernel, hcycle, hok, fun hrefused => ?_⟩
  obtain ⟨f, hf, -⟩ := hrefused.1 hcycle
  rw [hok] at hf
  cases hf

end Hierarchy

end LateBinding
