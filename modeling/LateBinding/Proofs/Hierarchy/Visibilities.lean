import LateBinding.Proofs.Hierarchy.Writes

namespace LateBinding

open Relation

variable {τ : Type}

/-- A method but for who may call it, where it stands and since when. -/
structure Implementation (τ : Type) where
  name : Symbol
  target : Option τ
  flags : MethodFlags
deriving DecidableEq

def Method.implementation (m : Method τ) : Implementation τ := ⟨m.name, m.target, m.flags⟩

namespace Hierarchy

/-- What a look-up that may find every method finds, but for visibility, place and date. -/
def implementation? (h : Hierarchy τ) (id : ClassId) (name : Symbol) : Option (Implementation τ) :=
  (h.walk id name).1.lookupAny.method?.map Method.implementation

/-- Look-ups for the name from a record come by the owner, and go on to something else than look-ups
from the owner come to. -/
def Diverts (h : Hierarchy τ) (owner : ClassId) (name : Symbol) (id : ClassId) : Prop :=
  (∃ behind, h.ComesBy id name owner behind) ∧
    h.implementation? id name ≠ h.implementation? owner name

variable {h h' : Hierarchy τ} {owner id : ClassId} {name x : Symbol} {behind : List ClassId}

theorem implementation?_of_walk_eq {id' : ClassId} {x' : Symbol}
    (hwalk : (h'.walk id' x').1 = (h.walk id x).1) :
    h'.implementation? id' x' = h.implementation? id x := by
  rw [implementation?, hwalk, ← implementation?]

theorem implementation?_of_defined {m : Method τ} (hm : (h.walk id name).1 = .defined m) :
    h.implementation? id name = some m.implementation := by
  rw [implementation?, hm]
  rfl

theorem Sound.walk_of_comesBy (hh : h.Sound) (hby : h.ComesBy id name owner behind) :
    (h.walk id name).1 = .ofFirst ((h.own? owner name).or (h.firstOwn? name behind)) := by
  obtain ⟨before, hlist, hfree⟩ := hby
  exact hh.walk_eq_of_ancestors hlist hfree

theorem ComesBy.knows (hby : h.ComesBy id name owner behind) (hh : h.Sound) : h.Knows owner := by
  obtain ⟨before, hlist, -⟩ := hby
  have hmem : owner ∈ h.linearize id := by
    rw [← hh.ancestors_fst, hlist]
    simp
  obtain ⟨hid, hreach⟩ := hh.mem_linearize_iff.mp hmem
  exact hh.knows_of_reaches hid hreach

/-- A look-up from a record begins with the record itself. -/
theorem Sound.comesBy_self (hh : h.Sound) (hself : h.linearize owner = owner :: behind)
    (name : Symbol) : h.ComesBy owner name owner behind :=
  ⟨[], by rw [hh.ancestors_fst, hself, List.nil_append], by simp⟩

/-- An own entry of the owner is what look-ups that come by find. -/
theorem Sound.not_diverts_of_own? (hh : h.Sound) {m : Method τ} (hm : h.own? owner name = some m)
    (id : ClassId) : ¬ h.Diverts owner name id := by
  rintro ⟨⟨behind, hby⟩, hne⟩
  obtain ⟨rest, hself⟩ := hh.linearize_eq_cons (hby.knows hh)
  refine hne (implementation?_of_walk_eq ?_)
  rw [hh.walk_of_comesBy hby, hh.walk_of_comesBy (hh.comesBy_self hself name), hm, Option.some_or,
    Option.some_or]

/-- Where the list of the owner stands last, the same records are behind the owner as in its list:
no record is listed twice, so the owner is met at one place. -/
theorem ComesBy.behind_eq {rest : List ClassId} (hby : h.ComesBy id name owner behind)
    (hh : h.Sound) (hsuffix : h.linearize owner <:+ h.linearize id)
    (hself : h.linearize owner = owner :: rest) : behind = rest := by
  obtain ⟨before, hlist, -⟩ := hby
  obtain ⟨before', hlist'⟩ := hsuffix
  have honce := hh.nodup_linearize id
  rw [← hh.ancestors_fst, hlist] at honce
  obtain ⟨-, hrest, hbefore⟩ := List.nodup_append'.mp honce
  have hsplits : before ++ owner :: behind = before' ++ owner :: rest := by
    rw [← hlist, hh.ancestors_fst, ← hlist', hself]
  exact ((List.append_cons_inj_of_notMem (fun hmem => hbefore hmem (by simp))
    (List.nodup_cons.mp hrest).1).mp hsplits).2.2

theorem Sound.not_diverts_of_suffix (hh : h.Sound) (hsuffix : h.linearize owner <:+ h.linearize id)
    (name : Symbol) : ¬ h.Diverts owner name id := by
  rintro ⟨⟨behind, hby⟩, hne⟩
  obtain ⟨rest, hself⟩ := hh.linearize_eq_cons (hby.knows hh)
  refine hne (implementation?_of_walk_eq ?_)
  rw [hh.walk_of_comesBy hby, hh.walk_of_comesBy (hh.comesBy_self hself name),
    hby.behind_eq hh hsuffix hself]

/-- The superclass brings its list as it is, and so does its superclass before. -/
theorem Stratified.suffix_of_superclasses (hh : h.Stratified)
    (hpath : ReflTransGen (fun x y => h.superclass? x = some y) id owner) :
    h.linearize owner <:+ h.linearize id := by
  induction hpath using ReflTransGen.head_induction_on with
  | refl => exact List.suffix_refl _
  | head hsuper _ ih =>
    obtain ⟨k, hk, hparent⟩ := Option.bind_eq_some_iff.mp hsuper
    obtain ⟨r, hr, rfl⟩ := kin?_eq_some_iff.mp hk
    exact ih.trans (hh.superclass_suffix hr hparent)

/-- The copy in the table of the owner is what every look-up that comes by finds from now on. -/
theorem Sound.implementation?_setVisibility (hh : h.Sound) (hfiled : h.AllFiled)
    {visibility : Visibility} (hok : (h.setVisibility owner name visibility).1 = .ok ()) :
    ((h.implementation? owner name).isSome ∧ ∀ id behind, h.ComesBy id name owner behind →
      (h.setVisibility owner name visibility).2.implementation? id name =
        h.implementation? owner name) ∧
      ∀ id x, (x = name → ∀ behind, ¬ h.ComesBy id name owner behind) →
        (h.setVisibility owner name visibility).2.implementation? id x = h.implementation? id x := by
  have hedit : ((Edit.setVisibility owner name visibility).apply h).1 = .ok .done := by
    rw [Edit.apply, Edit.finished, hok]
    rfl
  have hh' : (h.setVisibility owner name visibility).2.Sound :=
    (hh.evolves_table (e := .setVisibility owner name visibility) rfl).sound
  obtain ⟨entry, ⟨m, hm, -, rfl⟩, hwrites⟩ := hh.rewrites_apply hfiled rfl hedit
  have hfound := implementation?_of_defined hm
  have hdefined : m.isUndefined = false := by
    rw [hh.walk_fst] at hm
    exact (Walk.ofFirst_eq_defined_iff.mp hm).2
  refine ⟨⟨by rw [hfound]; rfl, fun id behind hby => ?_⟩, fun id x hnot => ?_⟩
  · have hcopy := hwrites.walk_of_comesBy hh hh' hby
    rw [Option.some_or] at hcopy
    have hrun := implementation?_of_defined
      (hcopy.trans (Walk.ofFirst_eq_defined_iff.mpr ⟨rfl, hdefined⟩))
    exact hrun.trans hfound.symm
  · exact implementation?_of_walk_eq (hwrites.walk_of_not_comesBy hh hh' hnot)

/-- Whatever was done with a hierarchy, a method that is given another visibility runs as before,
except from records that are diverted: those find from now on what look-ups from the owner found. No
record is diverted that has the owner on its way up the superclasses, or that does not have it among
its ancestors, and none at all if the owner had an entry of its own. -/
theorem setVisibility_after {ops : List (Operation τ)} (hops : (empty : Hierarchy τ).Supports ops)
    {owner : ClassId} {name : Symbol} {visibility : Visibility}
    (hok : ((empty.after ops).setVisibility owner name visibility).1 = .ok ()) :
    let h : Hierarchy τ := empty.after ops
    let h' := (h.setVisibility owner name visibility).2
    (∀ id x, h'.implementation? id x ≠ h.implementation? id x ↔
      x = name ∧ h.Diverts owner name id) ∧
      (∀ id, h.Diverts owner name id →
        h'.implementation? id name = h.implementation? owner name ∧
          (h.implementation? owner name).isSome) ∧
        ∀ id, (ReflTransGen (fun x y => h.superclass? x = some y) id owner ∨
          owner ∉ (h.ancestors id).1 ∨ ∃ m, h.own? owner name = some m) →
            ¬ h.Diverts owner name id := by
  intro h h'
  have hh : h.Sound := sound_after hops
  obtain ⟨⟨hsome, hby⟩, hbeside⟩ := hh.implementation?_setVisibility (allFiled_after hops) hok
  refine ⟨fun id x => ⟨fun hne => ?_, ?_⟩, fun id hdiverts => ?_, fun id hcase => ?_⟩
  · -- A look-up that comes to something else has come by the owner.
    have hmeets : x = name ∧ ∃ behind, h.ComesBy id name owner behind := by
      by_contra hnot
      exact hne (hbeside id x fun hx behind hcomes => hnot ⟨hx, behind, hcomes⟩)
    obtain ⟨rfl, behind, hcomes⟩ := hmeets
    refine ⟨rfl, ⟨behind, hcomes⟩, fun heq => hne ?_⟩
    rw [hby id behind hcomes, heq]
  · rintro ⟨rfl, ⟨behind, hcomes⟩, hne⟩
    rw [hby id behind hcomes]
    exact hne.symm
  · obtain ⟨behind, hcomes⟩ := hdiverts.1
    exact ⟨hby id behind hcomes, hsome⟩
  · rcases hcase with hpath | hnot | ⟨m, hm⟩
    · exact hh.not_diverts_of_suffix (hh.suffix_of_superclasses hpath) name
    · rintro ⟨⟨behind, before, hlist, -⟩, -⟩
      rw [hlist] at hnot
      simp at hnot
    · exact hh.not_diverts_of_own? hm id

/-- A class makes a method private that it inherits from a module of its superclass. The method is
what its subclass still finds, and the superclass finds it as well. -/
theorem setVisibility_after_inheritance :
    let foo : Symbol := ⟨"foo"⟩
    let ops : List (Operation Nat) :=
      [.edit (.create "M" none { isModule := true }), .edit (.create "A" none {}),
        .edit (.create "B" (some ⟨1⟩) {}), .edit (.create "C" (some ⟨2⟩) {}),
        .edit (.addInclude ⟨1⟩ ⟨0⟩), .edit (.define ⟨0⟩ foo .pub 7 {})]
    let h : Hierarchy Nat := empty.after ops
    let h' := (h.setVisibility ⟨2⟩ foo .priv).2
    h'.implementation? ⟨3⟩ foo = h.implementation? ⟨3⟩ foo ∧
      h'.implementation? ⟨1⟩ foo = h.implementation? ⟨1⟩ foo ∧
        (h'.walk ⟨3⟩ foo).1.method?.map Method.visibility = some .priv := by
  intro foo ops h h'
  have hops : (empty : Hierarchy Nat).Supports ops := by decide +kernel
  have hok : (h.setVisibility ⟨2⟩ foo .priv).1 = .ok () := by decide +kernel
  obtain ⟨hchanges, -, hkept⟩ := setVisibility_after hops hok
  have hsame {id : ClassId} (hnot : ¬ h.Diverts ⟨2⟩ foo id) :
      h'.implementation? id foo = h.implementation? id foo := by
    by_contra hne
    exact hnot ((hchanges id foo).mp hne).2
  have hpath : ReflTransGen (fun x y => h.superclass? x = some y) ⟨3⟩ ⟨2⟩ :=
    .single (by decide +kernel)
  exact ⟨hsame (hkept ⟨3⟩ (.inl hpath)), hsame (hkept ⟨1⟩ (.inr (.inl (by decide +kernel)))),
    by decide +kernel⟩

/-- A class includes a module that builds on another one, which the superclass includes as well. The
class finds the method of the superclass, the module that of the shared module. Once the module has
been asked for the visibility that the method has anyway, the class finds the latter. -/
theorem setVisibility_diverts :
    let foo : Symbol := ⟨"foo"⟩
    let ops : List (Operation Nat) :=
      [.edit (.create "K" none { isModule := true }), .edit (.create "O" none { isModule := true }),
        .edit (.create "S" none {}), .edit (.create "C" (some ⟨2⟩) {}),
        .edit (.addInclude ⟨1⟩ ⟨0⟩), .edit (.addInclude ⟨2⟩ ⟨0⟩), .edit (.addInclude ⟨3⟩ ⟨1⟩),
        .edit (.define ⟨0⟩ foo .pub 1 {}), .edit (.define ⟨2⟩ foo .pub 2 {})]
    let h : Hierarchy Nat := empty.after ops
    let h' := (h.setVisibility ⟨1⟩ foo .pub).2
    (empty : Hierarchy Nat).Supports ops ∧ (h.setVisibility ⟨1⟩ foo .pub).1 = .ok () ∧
      h.implementation? ⟨3⟩ foo = some ⟨foo, some 2, {}⟩ ∧
        h'.implementation? ⟨3⟩ foo = some ⟨foo, some 1, {}⟩ := by
  decide +kernel

end Hierarchy

end LateBinding
