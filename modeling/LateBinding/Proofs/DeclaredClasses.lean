import LateBinding.Proofs.Hierarchy.Lasting
import LateBinding.Proofs.Hierarchy.Moves
import LateBinding.Proofs.Metaclasses

namespace LateBinding

variable {τ : Type}

/-- The operation moves the singleton class of an object away from the declared class. -/
def Operation.MovesSingleton (o : ObjectRef) (h : Hierarchy τ) : Operation τ → Prop
  | .edit (.setSuperclass cls superclass) =>
    h.singletonOf? o = some cls ∧ superclass ≠ o.declaredClass ∧
      (h.setSuperclass cls superclass).1 = .ok ()
  | _ => False

instance (o : ObjectRef) (h : Hierarchy τ) : (op : Operation τ) → Decidable (op.MovesSingleton o h)
  | .edit (.setSuperclass cls superclass) =>
    inferInstanceAs (Decidable (h.singletonOf? o = some cls ∧ superclass ≠ o.declaredClass ∧
      (h.setSuperclass cls superclass).1 = .ok ()))
  | .edit (.create ..) | .edit (.attachToObject ..) | .edit (.attachToModule ..)
  | .edit (.define ..) | .edit (.remove ..) | .edit (.undefine ..) | .edit (.addAlias ..)
  | .edit (.setVisibility ..) | .edit (.addInclude ..) | .edit (.ancestors _)
  | .edit (.isAncestor ..) | .edit (.record _) | .singletonClassOf .. | .walk .. | .walkCached ..
  | .effectiveClass .. | .describe .. | .look => isFalse id

theorem Operation.MovesSingleton.exists_singletonOf? {o : ObjectRef} {h : Hierarchy τ}
    {op : Operation τ} (hmoves : op.MovesSingleton o h) : ∃ s, h.singletonOf? o = some s := by
  cases op with
  | edit e =>
    cases e with
    | setSuperclass cls superclass => exact ⟨cls, hmoves.1⟩
    | _ => exact hmoves.elim
  | _ => exact hmoves.elim

namespace Hierarchy

variable {h h' : Hierarchy τ} {o : ObjectRef}

/-- The singleton class of an object, if it has one, is directly below its declared class. -/
def BelowDeclared (o : ObjectRef) (h : Hierarchy τ) : Prop :=
  ∀ s, h.singletonOf? o = some s → h.superclass? s = some o.declaredClass

/-- The declared class of an object is an ancestor of its singleton class, if it has one. -/
def Specializes (o : ObjectRef) (h : Hierarchy τ) : Prop :=
  ∀ s, h.singletonOf? o = some s → o.declaredClass ∈ h.linearize s

theorem BelowDeclared.specializes (hbelow : h.BelowDeclared o) (hh : h.Sound) :
    h.Specializes o := by
  intro s hs
  obtain ⟨k, hk, hsuper⟩ := Option.bind_eq_some_iff.mp (hbelow s hs)
  exact hh.mem_linearize_iff.mpr ⟨.of_kin? hk, .single (edge_of_kin? hk hsuper)⟩

theorem BelowDeclared.of_keepsKin (hbelow : h.BelowDeclared o) (hkeeps : h.KeepsKin h')
    (hobjects : h'.objectSingletons = h.objectSingletons) : h'.BelowDeclared o := by
  intro s hs
  rw [singletonOf?, hobjects] at hs
  exact hkeeps.superclass? (hbelow s hs)

theorem SameKin.keepsKin (hsame : h.SameKin h') : h.KeepsKin h' :=
  fun _ k hk => ⟨k, by rw [hsame.kin?_eq, hk], rfl, rfl, fun _ hm => hm⟩

theorem BelowDeclared.of_sameKin (hbelow : h.BelowDeclared o) (hsame : h.SameKin h') :
    h'.BelowDeclared o :=
  hbelow.of_keepsKin hsame.keepsKin hsame.objects_eq

theorem objectSingletons_attachToModule (h : Hierarchy τ) (module superclass : ClassId) :
    (h.attachToModule module superclass).2.objectSingletons = h.objectSingletons := by
  rw [attachToModule]
  split
  · rfl
  · split <;> rfl

theorem BelowDeclared.attachToModule (hbelow : h.BelowDeclared o) (module superclass : ClassId) :
    (h.attachToModule module superclass).2.BelowDeclared o :=
  hbelow.of_keepsKin (h.keepsKin_attachToModule module superclass)
    (h.objectSingletons_attachToModule module superclass)

theorem BelowDeclared.attachToObject (hbelow : h.BelowDeclared o) (o' : ObjectRef) (name : String) :
    (h.attachToObject o' name).2.BelowDeclared o := by
  rcases h.attachToObject_cases o' name with heq | ⟨hobjects, hkin⟩
  · rw [heq]
    exact hbelow
  · intro s hs
    rw [singletonOf?, hobjects, Table.get?_insert] at hs
    split at hs
    · rename_i ho
      subst ho
      obtain rfl := Option.some.inj hs
      exact superclass?_eq (by rw [hkin, Function.update_self])
    · exact (keepsKin_of_new hkin).superclass? (hbelow s hs)

theorem BelowDeclared.setSuperclass (hbelow : h.BelowDeclared o) (hh : h.Sound)
    {cls superclass : ClassId}
    (hstays : ¬ (Operation.edit (.setSuperclass cls superclass)).MovesSingleton o h) :
    (h.setSuperclass cls superclass).2.BelowDeclared o := by
  by_cases hok : (h.setSuperclass cls superclass).1 = .ok ()
  · rcases hh.kin_setSuperclass cls superclass with hsame | ⟨k, -, -, -, -, -, hobjects, hkin⟩
    · exact hbelow.of_sameKin hsame
    · intro s hs
      rw [singletonOf?, hobjects, ← singletonOf?] at hs
      by_cases hcls : s = cls
      · subst hcls
        rw [superclass?_eq (by rw [hkin, Function.update_self])]
        by_contra hne
        exact hstays ⟨hs, fun heq => hne (congrArg some heq), hok⟩
      · obtain ⟨ks, hks, hsuper⟩ := Option.bind_eq_some_iff.mp (hbelow s hs)
        rw [superclass?_eq (by rw [hkin, Function.update_of_ne hcls, hks]), hsuper]
  · cases hh.moveOutcome cls superclass with
    | refused hrec heq =>
      rw [heq]
      exact hbelow.of_sameKin hrec.sameKin
    | moved hrec hr hcls hs hsuper hback heq => exact absurd (by rw [heq]) hok

/-- Only an operation that moves the singleton class of an object changes what it is below. -/
theorem BelowDeclared.operation (hbelow : h.BelowDeclared o) (hh : h.Sound) {op : Operation τ}
    (hop : op.NamesKnownClasses h) (hstays : ¬ op.MovesSingleton o h) :
    (op.apply h).2.BelowDeclared o := by
  cases op with
  | edit e =>
    cases e with
    | create name superclass flags =>
      exact hbelow.of_keepsKin (keepsKin_of_new (h.kin?_create name superclass flags)) rfl
    | attachToObject o' name => exact hbelow.attachToObject o' name
    | attachToModule module superclass => exact hbelow.attachToModule module superclass
    | define | remove | undefine | addAlias | setVisibility =>
      exact hbelow.of_sameKin (hh.sameKin_table rfl)
    | addInclude target module => exact hbelow.of_sameKin (hh.sameKin_addInclude target module)
    | setSuperclass cls superclass => exact hbelow.setSuperclass hh hstays
    | ancestors id => exact hbelow.of_sameKin (hh.recalls_ancestors id).sameKin
    | isAncestor descendant ancestor =>
      exact hbelow.of_sameKin (hh.recalls_isAncestor descendant ancestor).sameKin
    | record id => exact hbelow
  | singletonClassOf core v =>
    exact CoreClasses.singletonClassOf_induction (P := BelowDeclared o)
      (fun _ _ _ hbelow => hbelow.attachToModule _ _) hh hop
      (fun o' name _ _ => hbelow.attachToObject o' name) hbelow
  | walk id name =>
    simp only [Operation.apply, hh.walk_eq]
    exact hbelow.of_sameKin (hh.recalls_ancestors id).sameKin
  | walkCached cache id name =>
    exact hbelow.of_sameKin (hh.recalls_walkCached cache id name).sameKin
  | _ => exact hbelow

theorem BelowDeclared.after (hbelow : h.BelowDeclared o) (hh : h.Sound) {ops : List (Operation τ)}
    (hops : h.Supports ops) (hstays : h.Throughout (fun op h => ¬ op.MovesSingleton o h) ops) :
    (h.after ops).BelowDeclared o := by
  have hstep {h : Hierarchy τ} {op : Operation τ} (hh : h.Sound) (hop : op.NamesKnownClasses h)
      (hbelow : h.BelowDeclared o) :
      (op.apply h).2.BelowDeclared o ∨ op.MovesSingleton o h := by
    by_cases hmoves : op.MovesSingleton o h
    · exact .inr hmoves
    · exact .inl (hbelow.operation hh hop hmoves)
  rcases hh.kept_or hstep hops hbelow with hkept | ⟨pre, op, post, rfl, hmoves⟩
  · exact hkept
  · exact absurd hmoves (throughout_append.mp hstays).2.1

/-- In a step, a singleton class is made below the declared class, keeps it as an ancestor, or loses
it because a class is moved. -/
theorem Specializes.operation (hspec : h.Specializes o) (hh : h.Sound) {op : Operation τ}
    (hop : op.NamesKnownClasses h) : (op.apply h).2.Specializes o ∨
      ∃ cls superclass s, op = .edit (.setSuperclass cls superclass) ∧
        h.singletonOf? o = some s ∧ h.Severs cls superclass s o.declaredClass := by
  cases hs : h.singletonOf? o with
  | none =>
    have hbelow : h.BelowDeclared o := fun s hs' => by
      rw [hs] at hs'
      cases hs'
    have hstays : ¬ op.MovesSingleton o h := fun hmoves => by
      obtain ⟨s, hs'⟩ := hmoves.exists_singletonOf?
      rw [hs] at hs'
      cases hs'
    exact .inl ((hbelow.operation hh hop hstays).specializes (hh.evolves_operation hop).sound)
  | some s =>
    rcases hh.mem_linearize_or_severs hop (hspec s hs) with hmem | ⟨cls, superclass, heq, hsevers⟩
    · refine .inl fun s' hs' => ?_
      have hkept := (h.grows_operation op).attached (v := .object o) hs
      obtain rfl : s = s' := Option.some.inj (hkept.symm.trans hs')
      exact hmem
    · exact .inr ⟨cls, superclass, s, heq, rfl, hsevers⟩

theorem Specializes.after (hspec : h.Specializes o) (hh : h.Sound) {ops : List (Operation τ)}
    (hops : h.Supports ops) : (h.after ops).Specializes o ∨
      ∃ pre cls superclass post s, ops = pre ++ .edit (.setSuperclass cls superclass) :: post ∧
        (h.after pre).singletonOf? o = some s ∧
          (h.after pre).Severs cls superclass s o.declaredClass := by
  refine (hh.kept_or (fun hh hop hspec => hspec.operation hh hop) hops hspec).imp_right ?_
  rintro ⟨pre, op, post, rfl, cls, superclass, s, rfl, hs, hsevers⟩
  exact ⟨pre, cls, superclass, post, s, rfl, hs, hsevers⟩

theorem Specializes.mem_linearize (hspec : h.Specializes o) (hh : h.Sound) (core : CoreClasses)
    (hdeclared : h.Knows o.declaredClass) :
    o.declaredClass ∈ h.linearize (core.effectiveClass h (.object o)) := by
  rw [CoreClasses.effectiveClass]
  cases hs : h.singletonOf? o with
  | none => exact hh.self_mem_linearize hdeclared
  | some s => exact hspec s hs

/-- Whatever was done with a hierarchy, the declared class of an object, if it exists, is among the
ancestors of the class from which look-ups for the object begin, unless the singleton class of the
object was moved to another class. If the declared class ever gets lost, then because a class was
moved above which alone it was, to a new superclass that does not have it; and every such move does
lose it. While it is there, its methods are found unless an ancestor before it has an entry for the
name. -/
theorem declared_class_after (core : CoreClasses) (o : ObjectRef) {ops : List (Operation τ)}
    (hops : (empty : Hierarchy τ).Supports ops)
    (hdeclared : (empty.after ops : Hierarchy τ).Knows o.declaredClass) :
    let h : Hierarchy τ := empty.after ops
    let first := core.effectiveClass h (.object o)
    ((empty : Hierarchy τ).Throughout (fun op h => ¬ op.MovesSingleton o h) ops →
      o.declaredClass ∈ (h.ancestors first).1) ∧
      (o.declaredClass ∉ (h.ancestors first).1 →
        ∃ pre cls superclass post s, ops = pre ++ .edit (.setSuperclass cls superclass) :: post ∧
          (empty.after pre).singletonOf? o = some s ∧
            (empty.after pre).Severs cls superclass s o.declaredClass) ∧
      (∀ cls superclass, h.Severs cls superclass first o.declaredClass →
        let h' := (h.setSuperclass cls superclass).2
        core.effectiveClass h' (.object o) = first ∧
          o.declaredClass ∉ (h'.ancestors first).1) ∧
      ∀ pre post name entry, (h.ancestors first).1 = pre ++ o.declaredClass :: post →
        h.own? o.declaredClass name = some entry → (∀ x ∈ pre, h.own? x name = none) →
          (h.walk first name).1 = .ofFirst (some entry) := by
  intro h first
  have hh : h.Sound := sound_after hops
  have hnone : (empty : Hierarchy τ).singletonOf? o = none := rfl
  have hbelow : (empty : Hierarchy τ).BelowDeclared o := fun s hs => by
    rw [hnone] at hs
    cases hs
  rw [hh.ancestors_fst]
  refine ⟨fun hstays => ?_, fun hlost => ?_, fun cls superclass hsevers => ⟨?_, ?_⟩,
    fun pre post name entry hlist hentry hfree => ?_⟩
  · have hspec := (hbelow.after sound_empty hops hstays).specializes hh
    exact hspec.mem_linearize hh core hdeclared
  · -- Along any operations the path down from the declared class lasts, or one of them has cut it.
    rcases (hbelow.specializes sound_empty).after sound_empty hops with hspec | hsevered
    · exact absurd (hspec.mem_linearize hh core hdeclared) hlost
    · exact hsevered
  · have hobjects : (h.setSuperclass cls superclass).2.singletonOf? o = h.singletonOf? o :=
      congrFun (h.sameTies_setSuperclass cls superclass).attached?_eq (.object o)
    simp only [CoreClasses.effectiveClass, hobjects, first]
  · rw [(hh.evolves_setSuperclass cls superclass).sound.ancestors_fst]
    exact (hh.severs_iff.mp hsevers).2.2
  · exact hh.walk_of_ancestors (by rw [hh.ancestors_fst, hlist]) hentry hfree

/-- An object has a singleton class, which includes a module. Its declared class is given a superclass
and a method, and both are found. -/
theorem declared_class_after_other_moves :
    let o : ObjectRef := ⟨0, ⟨0⟩⟩
    let foo : Symbol := ⟨"foo"⟩
    let ops : List (Operation Unit) :=
      [.edit (.create "D" none {}), .edit (.attachToObject o "#<Class:#<D>>"),
        .edit (.create "E" none {}), .edit (.create "M" none { isModule := true }),
        .edit (.addInclude ⟨1⟩ ⟨3⟩), .edit (.setSuperclass ⟨0⟩ ⟨2⟩),
        .edit (.define ⟨0⟩ foo .pub () {})]
    let h : Hierarchy Unit := empty.after ops
    let first := (default : CoreClasses).effectiveClass h (.object o)
    first = ⟨1⟩ ∧ (⟨0⟩ : ClassId) ∈ (h.ancestors first).1 ∧
      ∃ entry, h.own? ⟨0⟩ foo = some entry ∧ (h.walk first foo).1 = .ofFirst (some entry) := by
  intro o foo ops h first
  have hops : (empty : Hierarchy Unit).Supports ops := by decide +kernel
  have hdeclared : h.Knows o.declaredClass := by decide +kernel
  have hstays : (empty : Hierarchy Unit).Throughout (fun op h => ¬ op.MovesSingleton o h) ops := by
    decide +kernel
  have hlist : (h.ancestors first).1 = [⟨1⟩, ⟨3⟩] ++ ⟨0⟩ :: [⟨2⟩] := by decide +kernel
  obtain ⟨entry, hentry⟩ : ∃ entry, h.own? ⟨0⟩ foo = some entry :=
    Option.isSome_iff_exists.mp (by decide +kernel)
  obtain ⟨hmem, -, -, hwalk⟩ := declared_class_after default o hops hdeclared
  exact ⟨by decide +kernel, hmem hstays, entry, hentry,
    hwalk _ _ foo entry hlist hentry (by decide +kernel)⟩

/-- The singleton class of an object is moved below another class, like any class, and the declared
class of the object is no ancestor of it any more. -/
theorem declared_class_left :
    let o : ObjectRef := ⟨0, ⟨0⟩⟩
    let ops : List (Operation Unit) :=
      [.edit (.create "D" none {}), .edit (.attachToObject o "#<Class:#<D>>"),
        .edit (.create "X" none {}), .edit (.setSuperclass ⟨1⟩ ⟨2⟩)]
    let h : Hierarchy Unit := empty.after ops
    (empty : Hierarchy Unit).Supports ops ∧ h.Knows o.declaredClass ∧
      (default : CoreClasses).effectiveClass h (.object o) = ⟨1⟩ ∧
        (⟨0⟩ : ClassId) ∉ (h.ancestors ⟨1⟩).1 := by
  decide +kernel

end Hierarchy

end LateBinding
