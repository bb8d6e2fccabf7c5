import LateBinding.Proofs.Hierarchy.Cycles
import LateBinding.Proofs.Hierarchy.Entries
import LateBinding.Proofs.Hierarchy.SmallSteps

namespace LateBinding

open Relation

variable {τ : Type}

namespace Hierarchy

/-- No record builds on itself. -/
def Acyclic (h : Hierarchy τ) : Prop := ∀ a, ¬ TransGen h.Edge a a

/-- The recursion that finds the ancestors of a record comes to a number. -/
def Consults (h : Hierarchy τ) : ClassId → ClassId → Prop := ReflTransGen h.Unfolds

/-- What records remember, from whatever epoch, names records only. -/
def Recorded (h : Hierarchy τ) : Prop :=
  ∀ id r m, h.get? id = some r → r.memo = some m → ∀ x ∈ m.list, h.Knows x

/-- A record is the same in two hierarchies, and so are its ancestors and all walks from it. -/
structure Undisturbed (h h' : Hierarchy τ) (id : ClassId) : Prop where
  get?_eq : h'.get? id = h.get? id
  ancestors_eq : (h'.ancestors id).1 = (h.ancestors id).1
  walk_eq : ∀ name, (h'.walk id name).1 = (h.walk id name).1

variable {h h' : Hierarchy τ} {id : ClassId} {list : List ClassId}

theorem Consults.reaches {a b : ClassId} (hab : h.Consults a b) : h.Reaches a b :=
  ReflTransGen.mono (fun _ _ hstep => hstep.2) _ _ hab

theorem Recorded.knows_of_lists (hh : h.Recorded) (hlist : h.Lists id list) :
    ∀ x ∈ list, h.Knows x := by
  induction hlist with
  | unknown _ => simp
  | recalled hrecalled =>
    obtain ⟨r, hr, hmemo⟩ := Option.bind_eq_some_iff.mp hrecalled
    rw [Record.remembered?] at hmemo
    split at hmemo
    · rename_i m hm
      split at hmemo
      · obtain rfl := Option.some.inj hmemo
        exact hh _ r m hr hm
      · cases hmemo
    · cases hmemo
  | computed hr _ _ ih =>
    intro x hx
    rcases mem_expand.mp hx with rfl | ⟨b, hb, hx⟩
    · exact .of_get? hr
    · exact ih b hb x hx

theorem Recorded.knows_of_ancestors (hh : h.Recorded) (id : ClassId) :
    ∀ x ∈ (h.ancestors id).1, h.Knows x := by
  by_cases hsome : ∃ list, h.Lists id list
  · obtain ⟨list, hlist⟩ := hsome
    obtain ⟨h₁, heq, -⟩ := hlist.ancestors_eq
    rw [heq]
    exact hh.knows_of_lists hlist
  · rw [ancestors_of_not_lists (not_exists.mp hsome)]
    simp

/-- What is remembered stays so where records keep what they remember and none is taken away. -/
private theorem Recorded.of_memo (hh : h.Recorded) (hknows : ∀ x, h.Knows x → h'.Knows x)
    (hmemo : ∀ id r' m, h'.get? id = some r' → r'.memo = some m →
      ∃ r, h.get? id = some r ∧ r.memo = some m) : h'.Recorded := by
  intro id r' m hr' hm x hx
  obtain ⟨r, hr, hm'⟩ := hmemo id r' m hr' hm
  exact hknows x (hh id r m hr hm' x hx)

theorem recorded_kept : KeptBySmallSteps (Recorded : Hierarchy τ → Prop) where
  create {h} name superclass flags hh := by
    refine hh.of_memo (fun x hx => (h.grows_create name superclass flags).knows hx) ?_
    intro id r' m hr' hm
    rcases get?_create_cases hr' with hold | ⟨-, rfl⟩
    · exact ⟨r', hold, hm⟩
    · cases hm
  modify {h} id f hf hh := by
    refine hh.of_memo (fun x hx => by rwa [Knows, size_modify]) ?_
    intro x r' m hr' hm
    obtain ⟨r, hr, hmemo⟩ := get?_of_map_eq (map_get?_modify hf h id x) hr'
    exact ⟨r, hr, hmemo.trans hm⟩
  remember {h id list} hlist hh := by
    intro x r' m hr' hm y hy
    rw [Knows, remember, size_modify]
    rw [remember, get?_modify] at hr'
    split at hr'
    · obtain ⟨r, -, rfl⟩ := Option.map_eq_some_iff.mp hr'
      obtain rfl := Option.some.inj hm
      exact hh.knows_of_lists hlist y hy
    · exact hh x r' m hr' hm y hy
  publishGraph {h} hh := by
    refine hh.of_memo (fun x hx => by simpa [Knows, size, publishGraph] using hx) ?_
    intro id r' m hr' hm
    rw [get?_publishGraph] at hr'
    obtain ⟨r, hr, rfl⟩ := Option.map_eq_some_iff.mp hr'
    exact ⟨r, hr, hm⟩
  dated generation hh := hh
  attached objectSingletons hh := hh

theorem recorded_after (ops : List (Operation τ)) : (empty.after ops : Hierarchy τ).Recorded :=
  recorded_kept.after (fun id r m hr _ => by cases hr) ops

theorem acyclic_of_rank (rank : ClassId → Nat)
    (hrank : ∀ a ∈ h.ids, ∀ b ∈ h.links a, rank b < rank a) : h.Acyclic := by
  have hedge (a b : ClassId) (hab : h.Edge a b) : rank b < rank a := by
    obtain ⟨r, hr, -⟩ := edge_iff.mp hab
    exact hrank a (mem_ids.mpr (.of_get? hr)) b hab
  exact fun a hcycle => Nat.lt_irrefl _ (rank_lt_of_transGen hedge hcycle)

/-- Without a cycle the recursion ends everywhere. The induction is on the number of records to which
it can still come. -/
theorem Acyclic.exists_lists (hh : h.Acyclic) (id : ClassId) : ∃ list, h.Lists id list := by
  induction hn : h.span h.Unfolds id using Nat.strong_induction_on generalizing id with
  | _ n ih =>
    cases hr : h.get? id with
    | none => exact ⟨[], .unknown hr⟩
    | some r =>
      cases hrecalled : h.recalled? id with
      | some list => exact ⟨list, .recalled hrecalled⟩
      | none =>
        have hbelow : ∀ b ∈ r.links, ∃ list, h.Lists b list := by
          intro b hb
          have hstep : h.Unfolds id b := ⟨hrecalled, edge_iff.mpr ⟨r, hr, hb⟩⟩
          have hlt := span_lt (.of_get? hr) hstep fun hback : h.Consults b id =>
            hh id (TransGen.head' hstep.2 hback.reaches)
          exact ih _ (hn ▸ hlt) b rfl
        choose! g hg using hbelow
        exact ⟨_, .computed hr hrecalled hg⟩

section Create

variable (name : String) (superclass : Option ClassId) (flags : ClassFlags)

theorem get?_create_of_ne (hne : id ≠ ⟨h.size⟩) :
    (h.create name superclass flags).2.get? id = h.get? id := by
  rw [get?_create, if_neg hne]

theorem recalled?_create_of_ne (hne : id ≠ ⟨h.size⟩) :
    (h.create name superclass flags).2.recalled? id = h.recalled? id := by
  rw [recalled?, get?_create_of_ne name superclass flags hne]
  rfl

theorem lists_create_iff (hconsults : ¬ h.Consults id ⟨h.size⟩) :
    (h.create name superclass flags).2.Lists id list ↔ h.Lists id list := by
  have hne {a : ClassId} (ha : ¬ h.Consults a ⟨h.size⟩) : a ≠ ⟨h.size⟩ := by
    rintro rfl
    exact ha .refl
  have hshape (a : ClassId) (ha : ¬ h.Consults a ⟨h.size⟩) :
      (h.create name superclass flags).2.shape? a = h.shape? a := by
    rw [shape?, get?_create_of_ne name superclass flags (hne ha), shape?]
  have hrecalled (a : ClassId) (ha : ¬ h.Consults a ⟨h.size⟩) :
      (h.create name superclass flags).2.recalled? a = h.recalled? a :=
    recalled?_create_of_ne name superclass flags (hne ha)
  have hclosed (a b : ClassId) (ha : ¬ h.Consults a ⟨h.size⟩) (hnone : h.recalled? a = none)
      (hab : h.Edge a b) : ¬ h.Consults b ⟨h.size⟩ :=
    fun hb => ha (.head ⟨hnone, hab⟩ hb)
  constructor
  · intro hlist
    refine hlist.congr hconsults (fun a ha => (hshape a ha).symm) (fun a ha => (hrecalled a ha).symm)
      fun a b ha hnone hab => hclosed a b ha ?_ ((edge_congr (hshape a ha)).mp hab)
    rw [← hrecalled a ha, hnone]
  · intro hlist
    exact hlist.congr hconsults hshape hrecalled hclosed

theorem undisturbed_create (hconsults : ¬ h.Consults id ⟨h.size⟩) :
    h.Undisturbed (h.create name superclass flags).2 id := by
  have hancestors : ((h.create name superclass flags).2.ancestors id).1 = (h.ancestors id).1 :=
    ancestors_fst_congr fun list => lists_create_iff name superclass flags hconsults
  refine ⟨get?_create_of_ne name superclass flags ?_, hancestors, fun n => ?_⟩
  · rintro rfl
    exact hconsults .refl
  · have hown : ∀ x ∈ (h.ancestors id).1,
        (h.create name superclass flags).2.own? x n = h.own? x n := fun x _ => by rw [own?_create]
    rw [walk_fst, walk_fst, hancestors, firstOwn?_congr hown]

/-- The new record is listed wherever the recursion came to its number. -/
theorem mem_lists_create (hconsults : h.Consults id ⟨h.size⟩)
    (hlist : (h.create name superclass flags).2.Lists id list) : ⟨h.size⟩ ∈ list := by
  have hnew := (h.get?_create name superclass flags ⟨h.size⟩).trans (if_pos rfl)
  -- The way to the number is followed from its end, and each record on it has to compute its list anew.
  induction hconsults using ReflTransGen.head_induction_on generalizing list with
  | refl =>
    cases hlist with
    | unknown hid =>
      rw [hnew] at hid
      cases hid
    | recalled hrecalled =>
      rw [recalled?_of_get? hnew] at hrecalled
      cases hrecalled
    | computed _ _ _ => exact mem_expand.mpr (.inl rfl)
  | @head a b hstep _ ih =>
    obtain ⟨r, hr, hb⟩ := edge_iff.mp hstep.2
    have hne : a ≠ ⟨h.size⟩ := by
      rintro rfl
      exact h.not_knows_size (.of_get? hr)
    have hr' := (get?_create_of_ne name superclass flags hne).trans hr
    cases hlist with
    | unknown hid =>
      rw [hr'] at hid
      cases hid
    | recalled hrecalled =>
      rw [recalled?_create_of_ne name superclass flags hne, hstep.1] at hrecalled
      cases hrecalled
    | computed hr₁ _ hg =>
      obtain rfl := Option.some.inj (hr₁.symm.trans hr')
      exact mem_expand.mpr (.inr ⟨b, hb, ih (hg b hb)⟩)

theorem acyclic_create_iff (h : Hierarchy τ) :
    (h.create name superclass flags).2.Acyclic ↔
      h.Acyclic ∧ ∀ s ∈ superclass, ¬ h.Reaches s ⟨h.size⟩ := by
  have hedge {a b : ClassId} : (h.create name superclass flags).2.Edge a b ↔
      h.Edge a b ∨ a = ⟨h.size⟩ ∧ superclass = some b := edge_create_iff
  cases superclass with
  | none =>
    have hsame : (h.create name none flags).2.Edge = h.Edge := by
      funext a b
      simpa using hedge
    simp [Acyclic, hsame]
  | some s =>
    have hsame : (h.create name (some s) flags).2.Edge = h.EdgeWith ⟨h.size⟩ s := by
      funext a b
      rw [eq_iff_iff, hedge, EdgeWith, Option.some.injEq, eq_comm (a := s)]
    have hcloses : (h.create name (some s) flags).2.Acyclic ↔ ¬ h.ClosesCycle ⟨h.size⟩ s := by
      rw [Acyclic, hsame, ClosesCycle, not_exists]
    have hold (hnew : (h.create name (some s) flags).2.Acyclic) : h.Acyclic := fun a hcycle =>
      hnew a (TransGen.mono (fun _ _ hab => hedge.mpr (.inl hab)) _ _ hcycle)
    constructor
    · intro hnew
      have hacyclic := hold hnew
      refine ⟨hacyclic, fun s' hs' => ?_⟩
      obtain rfl := Option.some.inj hs'
      exact fun hreach => hcloses.mp hnew ((closesCycle_iff_reaches hacyclic).mpr hreach)
    · rintro ⟨hacyclic, hreach⟩
      rw [hcloses, closesCycle_iff_reaches hacyclic]
      exact hreach s rfl

end Create

/-- Where no record was made below a number that is not in use, paths do not lead to it. -/
theorem eq_of_reaches_unawaited {a x : ClassId} (hnone : ∀ b, ¬ h.Edge b x)
    (hreach : h.Reaches a x) : a = x := by
  cases hreach with
  | refl => rfl
  | tail _ hedge => exact absurd hedge (hnone _)

/-- A new record takes the next number, and leaves the counters and the records, with their stamps, as
they were, whatever was done before. The ancestors of a record that was there and all walks from it
stay what they were if the recursion that finds its ancestors did not come to the number; if it did,
then the new record is one of them from now on, and was not before. The graph stays acyclic unless the
superclass is the new record or builds on its number. So a record that is made below an existing one or
below none, where no record was made below its own number before, disturbs nothing. -/
theorem creation_after (ops : List (Operation τ)) (name : String) (superclass : Option ClassId)
    (flags : ClassFlags) :
    let h : Hierarchy τ := empty.after ops
    let h' := (h.create name superclass flags).2
    let new := (h.create name superclass flags).1
    (¬ h.Knows new ∧ h'.generation = h.generation ∧ h'.epoch = h.epoch ∧
        ∀ id, h.Knows id → h'.get? id = h.get? id) ∧
      (∀ id, h.Knows id → ¬ h.Consults id new → h.Undisturbed h' id) ∧
      (∀ id, h.Knows id → h.Consults id new →
        new ∉ (h.ancestors id).1 ∧ (h'.Acyclic → new ∈ (h'.ancestors id).1)) ∧
      (h'.Acyclic ↔ h.Acyclic ∧ ∀ s ∈ superclass, ¬ h.Reaches s new) ∧
      ((∀ a, ¬ h.Edge a new) → superclass ≠ some new →
        (∀ id, h.Knows id → h.Undisturbed h' id) ∧ (h.Acyclic → h'.Acyclic)) := by
  intro h h' new
  have hacyclic := acyclic_create_iff name superclass flags h
  refine ⟨⟨h.not_knows_size, rfl, rfl, fun id hid => get?_create_of_knows name superclass flags hid⟩,
    fun id _ hconsults => undisturbed_create name superclass flags hconsults,
    fun id _ hconsults => ⟨fun hmem => ?_, fun hh' => ?_⟩, hacyclic, fun hnone hsuper => ⟨?_, ?_⟩⟩
  · exact h.not_knows_size ((recorded_after ops).knows_of_ancestors id new hmem)
  · obtain ⟨list, hlist⟩ := hh'.exists_lists id
    obtain ⟨h₁, heq, -⟩ := hlist.ancestors_eq
    rw [heq]
    exact mem_lists_create name superclass flags hconsults hlist
  · -- Where nobody waits for the number, the recursion comes to it from itself alone.
    intro id hid
    refine undisturbed_create name superclass flags fun hconsults => h.not_knows_size ?_
    rw [eq_of_reaches_unawaited hnone hconsults.reaches] at hid
    exact hid
  · refine fun hh => hacyclic.mpr ⟨hh, fun s hs hreach => hsuper ?_⟩
    rw [← eq_of_reaches_unawaited hnone hreach]
    exact hs

/-- Two classes are made below a number that is not in use, and the list of the second is remembered.
When the number is taken, the class that remembers its list is left alone. The other one has a new
ancestor, and so has the class below it. -/
theorem creation_after_forward_references :
    let foo : Symbol := ⟨"foo"⟩
    let ops : List (Operation Unit) :=
      [.edit (.create "A" (some ⟨1⟩) {}), .edit (.create "B" (some ⟨3⟩) {}),
        .edit (.create "C" (some ⟨3⟩) {}), .walk ⟨2⟩ foo]
    let h : Hierarchy Unit := empty.after ops
    let h' := (h.create "D" none {}).2
    (h'.walk ⟨2⟩ foo).1 = (h.walk ⟨2⟩ foo).1 ∧ ⟨3⟩ ∉ (h.ancestors ⟨0⟩).1 ∧
      ⟨3⟩ ∈ (h'.ancestors ⟨0⟩).1 ∧ h'.Acyclic := by
  intro foo ops h h'
  obtain ⟨-, hkept, hcomes, hacyclic, -⟩ := creation_after ops "D" none {}
  have hh : h.Acyclic := acyclic_of_rank (fun a => 3 - a.index) (by decide +kernel)
  have hh' : h'.Acyclic := hacyclic.mpr ⟨hh, by simp⟩
  have hremembers : ¬ h.Consults ⟨2⟩ ⟨3⟩ := fun hpath => by
    obtain heq | ⟨b, hstep, -⟩ := ReflTransGen.cases_head hpath
    · cases heq
    · have hrecalled : h.recalled? ⟨2⟩ = some [⟨2⟩] := by decide +kernel
      rw [hstep.1] at hrecalled
      cases hrecalled
  have hstep (a b : ClassId) (hnone : h.recalled? a = none) (hab : b ∈ h.links a) :
      h.Unfolds a b := ⟨hnone, hab⟩
  have hconsults : h.Consults ⟨0⟩ ⟨3⟩ :=
    .head (hstep ⟨0⟩ ⟨1⟩ (by decide +kernel) (by decide +kernel))
      (.single (hstep ⟨1⟩ ⟨3⟩ (by decide +kernel) (by decide +kernel)))
  obtain ⟨hbefore, hafter⟩ := hcomes ⟨0⟩ (by decide +kernel) hconsults
  exact ⟨(hkept ⟨2⟩ (by decide +kernel) hremembers).walk_eq foo, hbefore, hafter hh', hh'⟩

/-- A class is made below a number that is not in use. The class that takes the number becomes its
ancestor and brings a method that was not found before, or closes a cycle. -/
theorem creation_disturbs :
    let foo : Symbol := ⟨"foo"⟩
    let ops : List (Operation Unit) :=
      [.edit (.create "S" none {}), .edit (.define ⟨0⟩ foo .pub () {}),
        .edit (.create "A" (some ⟨2⟩) {})]
    let h : Hierarchy Unit := empty.after ops
    let below (s : ClassId) : Hierarchy Unit := (h.create "B" (some s) {}).2
    (h.Knows ⟨1⟩ ∧ (h.ancestors ⟨1⟩).1 = [⟨1⟩] ∧ ((below ⟨0⟩).ancestors ⟨1⟩).1 = [⟨1⟩, ⟨2⟩, ⟨0⟩]) ∧
      ((h.walk ⟨1⟩ foo).1 = .absent ∧ ((below ⟨0⟩).walk ⟨1⟩ foo).1 ≠ .absent) ∧
      h.Acyclic ∧ ¬ (below ⟨1⟩).Acyclic := by
  intro foo ops h below
  refine ⟨by decide +kernel, by decide +kernel,
    acyclic_of_rank (fun a => 3 - a.index) (by decide +kernel), fun hacyclic => ?_⟩
  have hup : ⟨2⟩ ∈ (below ⟨1⟩).links ⟨1⟩ := by decide +kernel
  have hback : ⟨1⟩ ∈ (below ⟨1⟩).links ⟨2⟩ := by decide +kernel
  exact hacyclic ⟨1⟩ (.tail (.single hup) hback)

end Hierarchy

end LateBinding
