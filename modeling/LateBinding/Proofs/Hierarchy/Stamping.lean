import LateBinding.Proofs.Hierarchy.Cycles
import LateBinding.Proofs.Hierarchy.Refusals

namespace LateBinding

variable {τ : Type}

namespace Hierarchy

/-- The step from one hierarchy to another takes a generation and stamps, with its number, the records
that have the owner among their ancestors. The owner is one of them. -/
structure StampsBelow (owner : ClassId) (h h' : Hierarchy τ) : Prop where
  generation_eq : h'.generation = h.generation + 1
  epoch_eq : h'.epoch = h.epoch
  owner_mem : owner ∈ (h.ancestors owner).1
  stampOf?_eq : ∀ id, h'.stampOf? id =
    if owner ∈ (h.ancestors id).1 then some (h.generation + 1) else h.stampOf? id

/-- The step takes a generation and an epoch, and stamps every record. -/
structure StampsAll (h h' : Hierarchy τ) : Prop where
  generation_eq : h'.generation = h.generation + 1
  epoch_eq : h'.epoch = h.epoch + 1
  stampOf?_eq : ∀ id, h'.stampOf? id = (h.stampOf? id).map fun _ => h.generation + 1

/-- The step leaves the counters alone, and the stamps of all records that are there already. -/
structure StampsNone (h h' : Hierarchy τ) : Prop where
  generation_eq : h'.generation = h.generation
  epoch_eq : h'.epoch = h.epoch
  stampOf?_eq : ∀ {id}, h.Knows id → h'.stampOf? id = h.stampOf? id
  knows : ∀ {id}, h.Knows id → h'.Knows id

variable {h h' h'' h₁ : Hierarchy τ} {owner : ClassId}

theorem Sound.stampsBelow_publishTable (hh : h.Sound) (howner : h.Knows owner)
    (f : Table Symbol (Method τ) → Table Symbol (Method τ)) :
    StampsBelow owner h ((h.modifyMethods owner f).publishTable owner (h.generation + 1)) := by
  have hpublishes := hh.publishes_publishTable owner f
  have hle : (h.modifyMethods owner f).generation ≤ h.generation + 1 := Nat.le_succ _
  have hforget := ((hh.sound_modifyMethods owner f).restamps_publishTable hle owner).forget_eq
  have hepoch := epoch_of_forget_eq hforget
  refine ⟨generation_of_forget_eq hforget, hepoch, ?_, fun id => ?_⟩
  · rw [hh.ancestors_fst]
    exact hh.self_mem_linearize howner
  · rw [hh.ancestors_fst]
    by_cases hid : h.Knows id
    · exact hpublishes.stamp_eq hid
    · have hnone := get?_eq_none_iff.mpr hid
      rw [Knows, ← hpublishes.size_eq, ← Knows, ← get?_eq_none_iff] at hid
      simp [stampOf?, hnone, hid, linearize_unknown hnone]

/-- Remembering more beforehand makes no difference to a step that stamps. -/
theorem StampsBelow.of_recalls (hstamps : StampsBelow owner h₁ h') (hrec : h.Recalls h₁)
    (hh : h.Sound) : StampsBelow owner h h' := by
  have hgeneration := generation_of_forget_eq hrec.forget_eq
  have hlist (id : ClassId) : (h₁.ancestors id).1 = (h.ancestors id).1 := by
    rw [hrec.sound.ancestors_fst, hh.ancestors_fst, hrec.linearize_eq hh.toStratified]
  refine ⟨?_, ?_, ?_, fun id => ?_⟩
  · rw [hstamps.generation_eq, hgeneration]
  · rw [hstamps.epoch_eq, epoch_of_forget_eq hrec.forget_eq]
  · rw [← hlist]
    exact hstamps.owner_mem
  · rw [hstamps.stampOf?_eq, hlist, hgeneration, stampOf?_of_forget_eq hrec.forget_eq]

theorem Sound.stampsBelow_apply (hh : h.Sound) {e : Edit τ} (he : e.table? = some owner)
    {result : Edited} (hok : (e.apply h).1 = .ok result) : StampsBelow owner h (e.apply h).2 := by
  obtain ⟨howner, h₁, f, hrec, heq⟩ := hh.table_granted he hok
  have howner₁ : h₁.Knows owner := (knows_iff_of_forget_eq hrec.forget_eq).mpr howner
  rw [heq]
  exact (hrec.sound.stampsBelow_publishTable howner₁ f).of_recalls hrec hh

theorem stampsAll_regraph (h : Hierarchy τ) (t : ClassId) (f : Record τ → Record τ) :
    h.StampsAll (h.regraph t f) where
  generation_eq := rfl
  epoch_eq := rfl
  stampOf?_eq id := by
    simp only [stampOf?, get?_regraph, Option.map_map]
    rfl

theorem StampsAll.of_recalls (hstamps : h₁.StampsAll h') (hrec : h.Recalls h₁) :
    h.StampsAll h' where
  generation_eq := by rw [hstamps.generation_eq, generation_of_forget_eq hrec.forget_eq]
  epoch_eq := by rw [hstamps.epoch_eq, epoch_of_forget_eq hrec.forget_eq]
  stampOf?_eq id := by
    rw [hstamps.stampOf?_eq, stampOf?_of_forget_eq hrec.forget_eq,
      generation_of_forget_eq hrec.forget_eq]

theorem StampsNone.refl (h : Hierarchy τ) : h.StampsNone h :=
  ⟨rfl, rfl, fun _ => rfl, fun hid => hid⟩

theorem StampsNone.trans (hfirst : h.StampsNone h') (hthen : h'.StampsNone h'') :
    h.StampsNone h'' where
  generation_eq := hthen.generation_eq.trans hfirst.generation_eq
  epoch_eq := hthen.epoch_eq.trans hfirst.epoch_eq
  stampOf?_eq hid := (hthen.stampOf?_eq (hfirst.knows hid)).trans (hfirst.stampOf?_eq hid)
  knows hid := hthen.knows (hfirst.knows hid)

theorem stampsNone_of_forget_eq (hforget : h'.forget = h.forget) : h.StampsNone h' where
  generation_eq := generation_of_forget_eq hforget
  epoch_eq := epoch_of_forget_eq hforget
  stampOf?_eq {id} _ := stampOf?_of_forget_eq hforget id
  knows := (knows_iff_of_forget_eq hforget).mpr

/-- A new record is stamped, but no record that is there already. -/
theorem stampsNone_create (h : Hierarchy τ) (name : String) (superclass : Option ClassId)
    (flags : ClassFlags) : h.StampsNone (h.create name superclass flags).2 where
  generation_eq := rfl
  epoch_eq := rfl
  stampOf?_eq hid := by rw [stampOf?, get?_create_of_knows name superclass flags hid, ← stampOf?]
  knows hid := by
    rw [← get?_eq_some_iff_knows, get?_create_of_knows name superclass flags hid]
    exact get?_eq_some_iff_knows.mpr hid

theorem stampsNone_attachToObject (h : Hierarchy τ) (o : ObjectRef) (name : String) :
    h.StampsNone (h.attachToObject o name).2 := by
  rw [attachToObject]
  split
  · exact .refl h
  · have hcreate := h.stampsNone_create name (some o.declaredClass) { isSingleton := true }
    exact ⟨hcreate.generation_eq, hcreate.epoch_eq, hcreate.stampOf?_eq, hcreate.knows⟩

theorem stampsNone_setMetaclass (h : Hierarchy τ) (id m : ClassId) :
    h.StampsNone (h.modify id fun r => { r with metaclass := some m }) where
  generation_eq := rfl
  epoch_eq := rfl
  stampOf?_eq {x} _ := by
    rw [stampOf?, get?_modify]
    split
    · rw [Option.map_map]
      rfl
    · rfl
  knows hid := by rwa [Knows, size_modify]

theorem stampsNone_attachToModule (h : Hierarchy τ) (module superclass : ClassId) :
    h.StampsNone (h.attachToModule module superclass).2 := by
  rw [attachToModule]
  split
  · exact .refl h
  · split
    · exact .refl h
    · exact (h.stampsNone_create ..).trans (stampsNone_setMetaclass ..)

theorem stampsNone_singletonClassOf {core : CoreClasses} (hh : h.Sound) (hcore : core.KnownIn h)
    (v : Value) : h.StampsNone (core.singletonClassOf h v).2 :=
  CoreClasses.singletonClassOf_induction (P := h.StampsNone)
    (fun {h' id above} _ _ _ hnone => hnone.trans (h'.stampsNone_attachToModule id above)) hh hcore
    (fun o name _ _ => h.stampsNone_attachToObject o name) (.refl h)

end Hierarchy

namespace Edit

/-- The request is not refused. -/
def Granted (h : Hierarchy τ) (e : Edit τ) : Prop := ∃ result, (e.apply h).1 = .ok result

/-- The request, if it is granted, makes a record build on another one: it includes a module that is
not among the ancestors, or moves a class. -/
def AddsEdge (h : Hierarchy τ) : Edit τ → Prop
  | addInclude target module => module ∉ (h.ancestors target).1
  | setSuperclass .. => True
  | _ => False

variable {h : Hierarchy τ} {e : Edit τ}

theorem exists_fault_of_not_granted (he : ¬ e.Granted h) : ∃ f, (e.apply h).1 = .error f := by
  cases houtcome : (e.apply h).1 with
  | ok result => exact absurd ⟨result, houtcome⟩ he
  | error f => exact ⟨f, rfl⟩

/-- The request changes a method table, or adds an edge to the graph. -/
def Writes (h : Hierarchy τ) (e : Edit τ) : Prop :=
  e.Granted h ∧ (e.table?.isSome ∨ e.AddsEdge h)

end Edit

/-- The operation is a request that changes a method table or the graph. -/
def Operation.Writes (h : Hierarchy τ) : Operation τ → Prop
  | edit e => e.Writes h
  | _ => False

namespace Hierarchy

variable {h : Hierarchy τ}

theorem Sound.stampsAll_apply (hh : h.Sound) {e : Edit τ} (hedge : e.AddsEdge h)
    (hok : e.Granted h) : h.StampsAll (e.apply h).2 := by
  obtain ⟨result, hok⟩ := hok
  cases e with
  | addInclude target module =>
    rw [Edit.AddsEdge, hh.ancestors_fst] at hedge
    rw [Edit.apply, Edit.finished] at hok ⊢
    cases hh.includeOutcome target module with
    | refused hrec heq =>
      rw [heq] at hok
      cases hok
    | listed hrec hlisted heq => exact absurd hlisted hedge
    | added hrec htarget hmodule hnew hback heq =>
      rw [heq]
      exact (stampsAll_regraph ..).of_recalls hrec
  | setSuperclass cls superclass =>
    rw [Edit.apply, Edit.finished] at hok ⊢
    cases hh.moveOutcome cls superclass with
    | refused hrec heq =>
      rw [heq] at hok
      cases hok
    | moved hrec hr hcls hs hsuper hback heq =>
      rw [heq]
      exact (stampsAll_regraph ..).of_recalls hrec
  | _ => cases hedge

theorem Sound.stampsNone_apply (hh : h.Sound) {e : Edit τ} (hnot : ¬ e.Writes h) :
    h.StampsNone (e.apply h).2 := by
  by_cases hgranted : e.Granted h
  · have hedge : ¬ (e.table?.isSome ∨ e.AddsEdge h) := fun hwrites => hnot ⟨hgranted, hwrites⟩
    cases e with
    | create name superclass flags => exact h.stampsNone_create name superclass flags
    | attachToObject o name => exact h.stampsNone_attachToObject o name
    | attachToModule module superclass => exact h.stampsNone_attachToModule module superclass
    | addInclude target module =>
      rw [not_or, Edit.AddsEdge, hh.ancestors_fst, not_not] at hedge
      rw [Edit.apply, Edit.finished]
      cases hh.includeOutcome target module with
      | refused hrec heq | listed hrec hlisted heq =>
        rw [heq]
        exact stampsNone_of_forget_eq hrec.forget_eq
      | added hrec htarget hmodule hnew hback heq => exact absurd hedge.2 hnew
    | ancestors id => exact stampsNone_of_forget_eq (hh.recalls_ancestors id).forget_eq
    | isAncestor descendant ancestor =>
      exact stampsNone_of_forget_eq (hh.recalls_isAncestor descendant ancestor).forget_eq
    | record id => exact .refl h
    | define | remove | undefine | addAlias | setVisibility => exact absurd (.inl rfl) hedge
    | setSuperclass cls superclass => exact absurd (.inr trivial) hedge
  · obtain ⟨f, hf⟩ := Edit.exists_fault_of_not_granted hgranted
    exact stampsNone_of_forget_eq (hh.forget_eq_of_refused hf)

theorem Sound.stampsNone_operation (hh : h.Sound) {op : Operation τ} (hop : op.NamesKnownClasses h)
    (hnot : ¬ op.Writes h) : h.StampsNone (op.apply h).2 := by
  cases op with
  | edit e => exact hh.stampsNone_apply hnot
  | singletonClassOf core v => exact stampsNone_singletonClassOf hh hop v
  | walk id name =>
    simp only [Operation.apply, hh.walk_eq]
    exact stampsNone_of_forget_eq (hh.recalls_ancestors id).forget_eq
  | walkCached cache id name =>
    exact stampsNone_of_forget_eq (hh.recalls_walkCached cache id name).forget_eq
  | effectiveClass | describe | look => exact .refl h

theorem Sound.generation_of_writes (hh : h.Sound) {op : Operation τ} (hop : op.Writes h) :
    (op.apply h).2.generation = h.generation + 1 := by
  cases op with
  | edit e =>
    obtain ⟨hgranted, htable | hedge⟩ := hop
    · obtain ⟨result, hok⟩ := hgranted
      obtain ⟨owner, he⟩ := Option.isSome_iff_exists.mp htable
      exact (hh.stampsBelow_apply he hok).generation_eq
    · exact (hh.stampsAll_apply hedge hgranted).generation_eq
  | _ => cases hop

theorem Sound.generation_le_operation (hh : h.Sound) {op : Operation τ}
    (hop : op.NamesKnownClasses h) : h.generation ≤ (op.apply h).2.generation := by
  by_cases hwrites : op.Writes h
  · rw [hh.generation_of_writes hwrites]
    exact Nat.le_succ _
  · exact (hh.stampsNone_operation hop hwrites).generation_eq.ge

theorem Sound.generation_le_after (hh : h.Sound) {ops : List (Operation τ)}
    (hops : h.Supports ops) : h.generation ≤ (h.after ops).generation := by
  induction ops generalizing h with
  | nil => exact le_rfl
  | cons op ops ih =>
    obtain ⟨hop, hrest⟩ := hops
    exact (hh.generation_le_operation hop).trans (ih (hh.evolves_operation hop).sound hrest)

/-- A write publishes a greater generation than any operation before it has left. -/
theorem Sound.generation_lt_of_writes (hh : h.Sound) {op op' : Operation τ}
    {between : List (Operation τ)} (hops : h.Supports (op :: between))
    (hop' : op'.Writes (h.after (op :: between))) :
    (op.apply h).2.generation < (op'.apply (h.after (op :: between))).2.generation := by
  have hle := (hh.evolves_operation hops.1).sound.generation_le_after hops.2
  rw [(hh.after hops).generation_of_writes hop']
  exact Nat.lt_succ_of_le hle

/-- Whatever was done with a hierarchy, a change of a method table takes the next generation, leaves
the epoch, and stamps exactly the records that have the changed one among their ancestors. A new
superclass, or a module that is not among the ancestors already, takes a generation and an epoch and
stamps all records. Anything else, granted or refused, moves no counter and no stamp of a record that
was there. So no stamp is ahead of the generation, and no write publishes a generation that was
published before. -/
theorem stamps_after {ops : List (Operation τ)} (hops : (empty : Hierarchy τ).Supports ops) :
    let h : Hierarchy τ := empty.after ops
    (∀ (e : Edit τ) owner, e.table? = some owner → e.Granted h →
      StampsBelow owner h (e.apply h).2) ∧
      (∀ e : Edit τ, e.AddsEdge h → e.Granted h → h.StampsAll (e.apply h).2) ∧
      (∀ op : Operation τ, op.NamesKnownClasses h → ¬ op.Writes h → h.StampsNone (op.apply h).2) ∧
      (∀ id g, h.stampOf? id = some g → g ≤ h.generation) ∧
        ∀ (op op' : Operation τ) between, h.Supports (op :: between) →
          op'.Writes (h.after (op :: between)) →
            (op.apply h).2.generation < (op'.apply (h.after (op :: between))).2.generation := by
  intro h
  have hh : h.Sound := sound_after hops
  refine ⟨fun e owner he hgranted => ?_, fun e hedge hgranted => hh.stampsAll_apply hedge hgranted,
    fun op hop hnot => hh.stampsNone_operation hop hnot, fun id g hg => hh.stamp_le hg,
    fun op op' between hrun hop' => hh.generation_lt_of_writes hrun hop'⟩
  obtain ⟨result, hok⟩ := hgranted
  exact hh.stampsBelow_apply he hok

/-- A module is mixed into a class that has a subclass. A method of the module stamps these three,
and no class beside them. To include the module in the subclass as well moves nothing, since it is
inherited; to include it in the class beside takes a generation and an epoch. -/
theorem stamps_after_define :
    let foo : Symbol := ⟨"foo"⟩
    let ops : List (Operation Unit) :=
      [.edit (.create "M" none { isModule := true }), .edit (.create "A" none {}),
        .edit (.create "B" (some ⟨1⟩) {}), .edit (.create "C" none {}),
        .edit (.addInclude ⟨1⟩ ⟨0⟩)]
    let h : Hierarchy Unit := empty.after ops
    let define : Edit Unit := .define ⟨0⟩ foo .pub () {}
    let addInclude : Edit Unit := .addInclude ⟨3⟩ ⟨0⟩
    let again : Edit Unit := .addInclude ⟨2⟩ ⟨0⟩
    (define.apply h).2.stampOf? ⟨2⟩ = some (h.generation + 1) ∧
      (define.apply h).2.stampOf? ⟨3⟩ = h.stampOf? ⟨3⟩ ∧
        (addInclude.apply h).2.epoch = h.epoch + 1 ∧
          (again.apply h).2.generation = h.generation ∧
            (define.apply h).2.generation < (addInclude.apply (define.apply h).2).2.generation := by
  intro foo ops h define addInclude again
  have hops : (empty : Hierarchy Unit).Supports ops := by decide +kernel
  have hdefined : define.Granted h :=
    ⟨.entry (.new foo ⟨0⟩ .pub () {} (h.generation + 1)), by decide +kernel⟩
  have hincluded : addInclude.Granted h := ⟨.done, by decide +kernel⟩
  have hedge : addInclude.AddsEdge h := show (⟨0⟩ : ClassId) ∉ (h.ancestors ⟨3⟩).1 by decide +kernel
  have hknown : (⟨0⟩ : ClassId) ∈ (h.ancestors ⟨2⟩).1 := by decide +kernel
  have hnone : ¬ (Operation.edit again).Writes h := by
    rintro ⟨-, htable | hnew⟩
    · cases htable
    · exact hnew hknown
  have hlater : (Operation.edit addInclude).Writes (h.after [.edit define]) :=
    ⟨⟨.done, by decide +kernel⟩, .inr (show (⟨0⟩ : ClassId) ∉ _ by decide +kernel)⟩
  obtain ⟨htable, hgraph, hothers, -, hdates⟩ := stamps_after hops
  have hstamps := (htable define ⟨0⟩ rfl hdefined).stampOf?_eq
  refine ⟨?_, ?_, (hgraph addInclude hedge hincluded).epoch_eq,
    (hothers (.edit again) trivial hnone).generation_eq,
    hdates (.edit define) (.edit addInclude) [] (by decide +kernel) hlater⟩
  · rw [hstamps, if_pos hknown]
  · rw [hstamps, if_neg (by decide +kernel)]

end Hierarchy

end LateBinding
