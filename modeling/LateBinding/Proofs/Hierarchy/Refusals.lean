import LateBinding.Proofs.Hierarchy.Kin

namespace LateBinding

variable {τ : Type}

namespace CoreClasses

variable {core : CoreClasses} {h h' : Hierarchy τ}

/-- A singleton class is made, together with those above it, or nothing is. Those above it are made
only for a record that exists, and such a record can be given its own. -/
theorem metaclassWithin_cases {depth : Nat} {id : ClassId} {made : Except Fault ClassId}
    (hmade : core.metaclassWithin depth h id = some (made, h')) :
    h.KeepsKin h' ∧ (h' = h ∨ ∃ m, made = .ok m) := by
  induction depth generalizing h h' id made with
  | zero => cases hmade
  | succ depth ih =>
    -- A record that exists is given its singleton class without fail.
    have hattach {g : Hierarchy τ} {k : Kin} {above : ClassId} (hk : g.kin? id = some k)
        (heq : some (g.attachToModule id above) = some (made, h')) :
        g.KeepsKin h' ∧ ∃ m, made = .ok m := by
      obtain ⟨m, -, hm, -⟩ := Hierarchy.metaclass_attachToModule hk above
      have hkeeps := g.keepsKin_attachToModule id above
      rw [Option.some.inj heq] at hm hkeeps
      exact ⟨hkeeps, m, hm⟩
    rw [metaclassWithin] at hmade
    cases hr : h.get? id with
    | none =>
      simp only [hr, Option.some.injEq, Prod.mk.injEq] at hmade
      rw [← hmade.2]
      exact ⟨.refl h, .inl rfl⟩
    | some r =>
      have hk : h.kin? id = some r.kin := Hierarchy.kin?_eq_some_iff.mpr ⟨r, hr, rfl⟩
      simp only [hr] at hmade
      split at hmade
      · obtain ⟨rfl, rfl⟩ := Prod.mk.inj (Option.some.inj hmade)
        exact ⟨.refl h, .inl rfl⟩
      · split at hmade
        · exact (hattach hk hmade).imp_right .inr
        · split at hmade
          · exact (hattach hk hmade).imp_right .inr
          · obtain ⟨⟨outcome, h₁⟩, hup, hrest⟩ := Option.bind_eq_some_iff.mp hmade
            obtain ⟨hgrown, hsame | ⟨above, rfl⟩⟩ := ih hup
            · cases outcome with
              | error f =>
                obtain ⟨-, rfl⟩ := Prod.mk.inj (Option.some.inj hrest)
                exact ⟨hgrown, .inl hsame⟩
              | ok above =>
                rw [hsame] at hrest
                exact (hattach hk hrest).imp_right .inr
            · obtain ⟨k₁, hk₁, -⟩ := hgrown hk
              obtain ⟨hkeeps, hok⟩ := hattach hk₁ hrest
              exact ⟨hgrown.trans hkeeps, .inr hok⟩

/-- A singleton class that is refused leaves everything as it was. -/
theorem singletonClassOf_refused {v : Value} {f : Fault}
    (hf : (core.singletonClassOf h v).1 = .error f) : (core.singletonClassOf h v).2 = h := by
  have hmetaclass {id : ClassId} (hf : (core.metaclassOf h id).1 = .error f) :
      (core.metaclassOf h id).2 = h := by
    rw [metaclassOf] at hf ⊢
    cases hmade : core.metaclassWithin (h.size + 1) h id with
    | none => rfl
    | some outcome =>
      rw [hmade, Option.getD_some] at hf
      obtain ⟨-, hsame | ⟨m, hm⟩⟩ := metaclassWithin_cases hmade
      · exact hsame
      · rw [hf] at hm
        cases hm
  rw [singletonClassOf] at hf ⊢
  split
  · rfl
  · rename_i r hr
    simp only [hr] at hf
    split
    · rfl
    · rename_i hallowed
      rw [if_neg hallowed] at hf
      cases v with
      | object o => cases hf
      | module id => exact hmetaclass hf
      | _ => rfl

end CoreClasses

namespace Hierarchy

variable {h : Hierarchy τ}

theorem Sound.forget_eq_of_refused (hh : h.Sound) {e : Edit τ} {f : Fault}
    (hf : (e.apply h).1 = .error f) : (e.apply h).2.forget = h.forget := by
  cases htable : e.table? with
  | some owner =>
    cases hh.tableOutcome htable with
    | written hrec hputs heq | removed hremove hm heq =>
      rw [heq] at hf
      cases hf
    | refused hrec heq =>
      rw [heq]
      exact hrec.forget_eq
  | none =>
    -- A new edge that is granted is answered as done, so a refusal has only asked for ancestors.
    have hgranted {outcome : Except Fault Unit × Hierarchy τ} {h' : Hierarchy τ}
        (heq : outcome = (.ok (), h')) : (Edit.finished outcome).1 ≠ .error f := by
      rw [heq]
      intro hf
      cases hf
    cases e with
    | create name superclass flags => cases hf
    | attachToObject o name => cases hf
    | attachToModule module superclass =>
      simp only [Edit.apply, attachToModule] at hf ⊢
      split at hf
      · rfl
      · split at hf <;> cases hf
    | addInclude target module =>
      rcases hh.addInclude_cases target module with hrec | ⟨h₁, -, -, -, heq⟩
      · exact hrec.forget_eq
      · exact absurd hf (hgranted heq)
    | setSuperclass cls superclass =>
      rcases hh.setSuperclass_cases cls superclass with hrec | ⟨h₁, -, -, -, -, -, -, -, -, heq⟩
      · exact hrec.forget_eq
      · exact absurd hf (hgranted heq)
    | ancestors id => cases hf
    | isAncestor descendant ancestor => cases hf
    | record id => rfl
    | _ => cases htable

/-- A change that concerns a name is granted exactly under a condition, and refused by a name fault.
-/
def GrantedIff (p : Prop) (name : Symbol) (outcome : Except Fault Unit) : Prop :=
  (outcome = .ok () ↔ p) ∧ ∀ f, outcome = .error f → f.kind = .name ∧ f.subject? = some name

theorem GrantedIff.granted {p : Prop} (hp : p) (name : Symbol) : GrantedIff p name (.ok ()) :=
  ⟨iff_of_true rfl hp, fun f hf => by cases hf⟩

theorem GrantedIff.refused {p : Prop} (hp : ¬ p) {name : Symbol} {f : Fault} (hkind : f.kind = .name)
    (hname : f.subject? = some name) : GrantedIff p name (.error f) := by
  refine ⟨iff_of_false (fun hok => by cases hok) hp, fun f' hf' => ?_⟩
  cases hf'
  exact ⟨hkind, hname⟩

theorem grantedIff_remove {owner : ClassId} (howner : h.Knows owner) (name : Symbol) :
    GrantedIff (∃ m, h.own? owner name = some m) name (h.remove owner name).1 := by
  obtain ⟨r, hr⟩ := howner.get?
  cases hm : h.own? owner name with
  | some m =>
    rw [remove_of_own? hm]
    exact .granted ⟨m, rfl⟩ name
  | none =>
    rw [remove_of_not_own? hr hm]
    refine .refused ?_ rfl rfl
    rintro ⟨m, hm⟩
    cases hm

theorem Sound.grantedIff_revise (hh : h.Sound) {owner : ClassId} (howner : h.Knows owner)
    (name : Symbol) (entry : Method τ → Nat → Method τ) :
    GrantedIff (∃ m, (h.walk owner name).1 = .defined m) name (h.revise owner name entry).1 := by
  obtain ⟨r, hr⟩ := howner.get?
  rw [hh.walk_eq]
  by_cases hdefined : ∃ m, h.view owner name = .defined m
  · obtain ⟨m, hm⟩ := hdefined
    rw [hh.revise_of_defined hm]
    exact .granted ⟨m, hm⟩ name
  · rw [hh.revise_of_not_defined hr (not_exists.mp hdefined)]
    exact .refused hdefined rfl rfl

/-- Whatever was done with a hierarchy, a request that is refused changes nothing but remembered
lists of ancestors, and neither does one for a singleton class. For a record that exists, a method
can always be defined. An entry can be removed exactly if the record has it in its own table, be it
a tombstone. A method can be undefined, given a second name or another visibility exactly if a walk
from the record finds it. The refusals are name faults about the name. -/
theorem refused_after {ops : List (Operation τ)} (hops : (empty : Hierarchy τ).Supports ops) :
    let h : Hierarchy τ := empty.after ops
    (∀ (e : Edit τ) (f : Fault), (e.apply h).1 = .error f → (e.apply h).2.forget = h.forget) ∧
      (∀ (core : CoreClasses) (v : Value) (f : Fault), (core.singletonClassOf h v).1 = .error f →
        (core.singletonClassOf h v).2.forget = h.forget) ∧
        ∀ owner, h.Knows owner → ∀ name,
          (∀ visibility target flags, ∃ m,
            (h.define owner name visibility target flags).1 = .ok m) ∧
          GrantedIff (∃ m, h.own? owner name = some m) name (h.remove owner name).1 ∧
          GrantedIff (∃ m, (h.walk owner name).1 = .defined m) name (h.undefine owner name).1 ∧
          (∀ new, GrantedIff (∃ m, (h.walk owner name).1 = .defined m) name
            (h.addAlias owner new name).1) ∧
          ∀ visibility, GrantedIff (∃ m, (h.walk owner name).1 = .defined m) name
            (h.setVisibility owner name visibility).1 := by
  intro h
  have hh : h.Sound := sound_after hops
  refine ⟨fun e f hf => hh.forget_eq_of_refused hf, fun core v f hf => ?_,
    fun owner howner name => ⟨fun visibility target flags => ?_, ?_, ?_, fun new => ?_,
      fun visibility => ?_⟩⟩
  · rw [CoreClasses.singletonClassOf_refused hf]
  · rw [define_of_knows howner]
    exact ⟨_, rfl⟩
  · exact grantedIff_remove howner name
  · exact hh.grantedIff_revise howner name _
  · exact hh.grantedIff_revise howner name _
  · exact hh.grantedIff_revise howner name _

/-- A class has undefined what it would inherit. A method that was undefined cannot be undefined
again or be given a second name, but the tombstone can be removed. -/
theorem refused_after_undefine :
    let name : Symbol := ⟨"name"⟩
    let ops : List (Operation Unit) :=
      [.edit (.create "A" none {}), .edit (.create "B" (some ⟨0⟩) {}),
        .edit (.define ⟨0⟩ name .pub () {}), .edit (.undefine ⟨1⟩ name)]
    let h : Hierarchy Unit := empty.after ops
    (h.undefine ⟨1⟩ name).1 = .error (.undefinedIn name "B") ∧
      ((Edit.undefine ⟨1⟩ name).apply h).2.forget = h.forget ∧
        (h.remove ⟨1⟩ name).1 = .ok () := by
  intro name ops h
  have hops : (empty : Hierarchy Unit).Supports ops := by decide +kernel
  have howner : h.Knows ⟨1⟩ := by decide +kernel
  have hrefused : (h.undefine ⟨1⟩ name).1 = .error (.undefinedIn name "B") := by decide +kernel
  have hentry : (h.own? ⟨1⟩ name).isSome = true := by decide +kernel
  obtain ⟨hforget, -, hgranted⟩ := refused_after hops
  obtain ⟨-, hremove, -⟩ := hgranted ⟨1⟩ howner name
  refine ⟨hrefused, hforget (.undefine ⟨1⟩ name) (.undefinedIn name "B") ?_,
    hremove.1.mpr (Option.isSome_iff_exists.mp hentry)⟩
  rw [Edit.apply, Edit.finished, hrefused]
  rfl

end Hierarchy

end LateBinding
