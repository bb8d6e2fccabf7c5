import LateBinding.Lookup.Cache
import LateBinding.Proofs.CoreClasses

namespace LateBinding

variable {τ : Type}

/-- Anything that the runtime does with a hierarchy. -/
inductive Operation (τ : Type) where
  | edit (e : Edit τ)
  | singletonClassOf (core : CoreClasses) (v : Value)
  | walk (id : ClassId) (name : Symbol)
  /-- A walk that asks a cache first, whatever the cache holds. -/
  | walkCached (cache : LookupCache τ) (id : ClassId) (name : Symbol)
  | effectiveClass (core : CoreClasses) (v : Value)
  | describe (core : CoreClasses) (v : Value)
  /-- Reads the records and the counters, but not what the records remember. -/
  | look

/-- What an operation comes to. -/
inductive Operation.Result (τ : Type) where
  | edited (outcome : Except Fault Edited)
  | made (outcome : Except Fault ClassId)
  | walked (walk : Walk τ)
  | walkedWith (walk : Walk τ) (cache : LookupCache τ)
  | cls (id : ClassId)
  | words (text : String)
  | view (h : Hierarchy τ)

namespace Operation

def apply (h : Hierarchy τ) : Operation τ → Result τ × Hierarchy τ
  | edit e => (.edited (e.apply h).1, (e.apply h).2)
  | singletonClassOf core v => (.made (core.singletonClassOf h v).1, (core.singletonClassOf h v).2)
  | walk id name => (.walked (h.walk id name).1, (h.walk id name).2)
  | walkCached cache id name =>
    let asked := h.walkCached cache id name
    (.walkedWith asked.1 asked.2.1, asked.2.2)
  | effectiveClass core v => (.cls (core.effectiveClass h v), h)
  | describe core v => (.words (core.describe h v), h)
  | look => (.view h.forget, h)

/-- Whatever record the operation makes has no superclass or one that exists. -/
def NamesKnownClasses (h : Hierarchy τ) : Operation τ → Prop
  | edit e => e.NamesKnownSuperclass h
  | singletonClassOf core _ => core.KnownIn h
  | _ => True

instance (h : Hierarchy τ) (op : Operation τ) : Decidable (op.NamesKnownClasses h) := by
  cases op <;> unfold NamesKnownClasses <;> infer_instance

end Operation

namespace Hierarchy

/-- The hierarchy after operations that are carried out one after the other. -/
def after (h : Hierarchy τ) (ops : List (Operation τ)) : Hierarchy τ :=
  ops.foldl (fun h op => (op.apply h).2) h

/-- What operations come to that are carried out one after the other. -/
def results : Hierarchy τ → List (Operation τ) → List (Operation.Result τ)
  | _, [] => []
  | h, op :: ops => (op.apply h).1 :: (op.apply h).2.results ops

/-- Along a list of operations, each has a property in the state in which it is carried out. -/
def Throughout (p : Operation τ → Hierarchy τ → Prop) (h : Hierarchy τ) : List (Operation τ) → Prop
  | [] => True
  | op :: ops => p op h ∧ (op.apply h).2.Throughout p ops

instance decidableThroughout (p : Operation τ → Hierarchy τ → Prop)
    [∀ op h, Decidable (p op h)] (h : Hierarchy τ) :
    (ops : List (Operation τ)) → Decidable (h.Throughout p ops)
  | [] => inferInstanceAs (Decidable True)
  | op :: ops =>
    have := decidableThroughout p (op.apply h).2 ops
    inferInstanceAs (Decidable (_ ∧ _))

/-- Along a list of operations, every record that is made has no superclass or one that exists. -/
def Supports (h : Hierarchy τ) (ops : List (Operation τ)) : Prop :=
  h.Throughout (fun op h => op.NamesKnownClasses h) ops

instance (h : Hierarchy τ) (ops : List (Operation τ)) : Decidable (h.Supports ops) :=
  inferInstanceAs (Decidable (h.Throughout _ ops))

variable {h : Hierarchy τ}

theorem throughout_append {p : Operation τ → Hierarchy τ → Prop} {ops later : List (Operation τ)} :
    h.Throughout p (ops ++ later) ↔ h.Throughout p ops ∧ (h.after ops).Throughout p later := by
  induction ops generalizing h with
  | nil => simp [Throughout, after]
  | cons op ops ih => simp only [List.cons_append, Throughout, ih, after, List.foldl_cons, and_assoc]

theorem after_append (h : Hierarchy τ) (ops later : List (Operation τ)) :
    h.after (ops ++ later) = (h.after ops).after later :=
  List.foldl_append

theorem after_map_edit (h : Hierarchy τ) (es : List (Edit τ)) :
    h.after (es.map .edit) = h.run es :=
  List.foldl_map

/-- Whatever a cache holds, a walk through it makes a hierarchy remember more at most. -/
theorem Sound.recalls_walkCached (hh : h.Sound) (cache : LookupCache τ) (id : ClassId)
    (name : Symbol) : h.Recalls (h.walkCached cache id name).2.2 := by
  rw [walkCached]
  split
  · exact hh.recalls_refl
  · split
    · exact hh.recalls_refl
    · rw [hh.walk_eq]
      exact hh.recalls_ancestors id

theorem Sound.evolves_operation (hh : h.Sound) {op : Operation τ} (hop : op.NamesKnownClasses h) :
    h.Evolves (op.apply h).2 := by
  cases op with
  | edit e => exact hh.evolves_apply hop
  | singletonClassOf core v => exact CoreClasses.evolves_singletonClassOf hh hop v
  | walk id name =>
    have hrec := hh.recalls_ancestors id
    simp only [Operation.apply, hh.walk_eq]
    exact hh.evolves_of_recalls hrec
  | walkCached cache id name => exact hh.evolves_of_recalls (hh.recalls_walkCached cache id name)
  | effectiveClass core v => exact hh.evolves_refl
  | describe core v => exact hh.evolves_refl
  | look => exact hh.evolves_refl

theorem Sound.after (hh : h.Sound) {ops : List (Operation τ)} (hops : h.Supports ops) :
    (h.after ops).Sound := by
  induction ops generalizing h with
  | nil => exact hh
  | cons op ops ih =>
    obtain ⟨hop, hrest⟩ := hops
    exact ih (hh.evolves_operation hop).sound hrest

/-- A property that every step keeps, unless the step is of a certain kind, is kept along a run or
there is a first step of that kind. -/
theorem Sound.kept_or {P : Hierarchy τ → Prop} {Q : Operation τ → Hierarchy τ → Prop}
    (hstep : ∀ {h : Hierarchy τ} {op : Operation τ}, h.Sound → op.NamesKnownClasses h → P h →
      P (op.apply h).2 ∨ Q op h)
    (hh : h.Sound) {ops : List (Operation τ)} (hops : h.Supports ops) (hP : P h) :
    P (h.after ops) ∨ ∃ pre op post, ops = pre ++ op :: post ∧ Q op (h.after pre) := by
  induction ops generalizing h with
  | nil => exact .inl hP
  | cons op ops ih =>
    obtain ⟨hop, hrest⟩ := hops
    rcases hstep hh hop hP with hkept | hQ
    · refine (ih (hh.evolves_operation hop).sound hrest hkept).imp_right ?_
      rintro ⟨pre, op', post, rfl, hQ⟩
      exact ⟨op :: pre, op', post, rfl, hQ⟩
    · exact .inr ⟨[], op, ops, rfl, hQ⟩

/-- Every state that operations lead to from nothing is sound. -/
theorem sound_after {ops : List (Operation τ)} (hops : (empty : Hierarchy τ).Supports ops) :
    (empty.after ops : Hierarchy τ).Sound :=
  sound_empty.after hops

end Hierarchy

end LateBinding
