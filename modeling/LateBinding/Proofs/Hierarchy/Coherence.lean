import LateBinding.Proofs.Hierarchy.Operations

namespace LateBinding

variable {τ : Type}

namespace Hierarchy

variable {h h' : Hierarchy τ}

theorem forget_forget (h : Hierarchy τ) : h.forget.forget = h.forget := by
  refine ext_get? (fun id => ?_) rfl rfl rfl
  rw [get?_forget, get?_forget, Option.map_map]
  rfl

theorem recalled?_forget (h : Hierarchy τ) (id : ClassId) : h.forget.recalled? id = none := by
  rw [recalled?, get?_forget]
  cases h.get? id <;> rfl

/-- Nothing has to be remembered for a hierarchy to be sound. -/
theorem Sound.forget (hh : h.Sound) : h.forget.Sound := by
  have hforget := h.forget_forget
  refine ⟨hh.toStratified.of_forget_eq hforget, ?_, ?_, ?_, ?_, ?_⟩
  · intro id r m hr hm
    rw [get?_forget] at hr
    obtain ⟨r, -, rfl⟩ := Option.map_eq_some_iff.mp hr
    cases hm
  · intro id list hlist
    rw [recalled?_forget] at hlist
    cases hlist
  · intro id g hg
    rw [stampOf?_of_forget_eq hforget] at hg
    exact hh.stamp_le hg
  · intro id r m hr hm
    rw [get?_forget] at hr
    obtain ⟨r, hr₀, rfl⟩ := Option.map_eq_some_iff.mp hr
    exact (knows_iff_of_forget_eq hforget).mpr (hh.metaclass_known hr₀ hm)
  · intro o s hs
    exact (knows_iff_of_forget_eq hforget).mpr (hh.singleton_known hs)

theorem Sound.linearize_forget (hh : h.Sound) (id : ClassId) :
    h.forget.linearize id = h.linearize id :=
  hh.toStratified.linearize_of_forget_eq h.forget_forget id

theorem Sound.first?_forget (hh : h.Sound) (id : ClassId) (name : Symbol) :
    h.forget.first? id name = h.first? id name := by
  rw [first?, first?, hh.linearize_forget]
  exact firstOwn?_congr fun x _ => own?_of_forget_eq h.forget_forget x name

theorem Sound.view_forget (hh : h.Sound) (id : ClassId) (name : Symbol) :
    h.forget.view id name = h.view id name := by
  rw [view, hh.first?_forget, ← view]

theorem forget_modify {f : Record τ → Record τ} (hf : ∀ r, (f r).forget = f r.forget)
    (h : Hierarchy τ) (id : ClassId) : (h.modify id f).forget = h.forget.modify id f := by
  refine ext_get? (fun x => ?_) rfl rfl rfl
  simp only [get?_forget, get?_modify]
  split
  · simp [Function.comp_def, hf]
  · rfl

theorem forget_modifyMethods (h : Hierarchy τ) (owner : ClassId)
    (f : Table Symbol (Method τ) → Table Symbol (Method τ)) :
    (h.modifyMethods owner f).forget = h.forget.modifyMethods owner f := by
  apply forget_modify
  intro r
  rfl

theorem forget_publishGraph (h : Hierarchy τ) : h.publishGraph.forget = h.forget.publishGraph := by
  refine ext_get? (fun x => ?_) rfl rfl rfl
  rw [get?_forget, get?_publishGraph, get?_publishGraph, get?_forget, Option.map_map, Option.map_map]
  rfl

theorem forget_regraph {f : Record τ → Record τ} (hf : ∀ r, (f r).forget = f r.forget)
    (h : Hierarchy τ) (t : ClassId) : (h.regraph t f).forget = h.forget.regraph t f := by
  rw [regraph, forget_publishGraph, forget_modify hf, ← regraph]

theorem create_forget (h : Hierarchy τ) (name : String) (superclass : Option ClassId)
    (flags : ClassFlags) : h.forget.create name superclass flags =
      ((h.create name superclass flags).1, (h.create name superclass flags).2.forget) := by
  simp [create, forget, size, Array.map_push, Record.forget, Record.new]

theorem attachToObject_forget (h : Hierarchy τ) (o : ObjectRef) (name : String) :
    h.forget.attachToObject o name =
      ((h.attachToObject o name).1, (h.attachToObject o name).2.forget) := by
  have hobjects : h.forget.singletonOf? o = h.singletonOf? o := rfl
  rw [attachToObject, attachToObject, hobjects]
  split
  · rfl
  · simp only [create_forget]
    rfl

theorem attachToModule_forget (h : Hierarchy τ) (module superclass : ClassId) :
    h.forget.attachToModule module superclass =
      ((h.attachToModule module superclass).1,
        (h.attachToModule module superclass).2.forget) := by
  rw [attachToModule, attachToModule, get?_forget]
  cases h.get? module with
  | none => rfl
  | some r =>
    cases hm : r.metaclass with
    | some m => simp only [Option.map_some, Record.forget, hm]
    | none =>
      simp only [Option.map_some, Record.forget, hm, create_forget]
      congr 1
      symm
      apply forget_modify
      intro r
      rfl

end Hierarchy

namespace CoreClasses

variable {core : CoreClasses} {h : Hierarchy τ}

theorem metaclassWithin_forget (depth : Nat) (id : ClassId) :
    core.metaclassWithin depth h.forget id =
      (core.metaclassWithin depth h id).map fun made => (made.1, made.2.forget) := by
  induction depth generalizing id with
  | zero => rfl
  | succ depth ih =>
    rw [metaclassWithin, metaclassWithin, Hierarchy.get?_forget]
    cases h.get? id with
    | none => rfl
    | some r =>
      have hmodule : r.forget.isModule = r.isModule := rfl
      have hmetaclass : r.forget.metaclass = r.metaclass := rfl
      have hsuper : r.forget.superclass = r.superclass := rfl
      simp only [Option.map_some, hmodule, hmetaclass, hsuper]
      cases r.metaclass with
      | some m => rfl
      | none =>
        cases r.isModule with
        | true => exact congrArg some (Hierarchy.attachToModule_forget h id core.module)
        | false =>
          cases r.superclass with
          | none => exact congrArg some (Hierarchy.attachToModule_forget h id core.cls)
          | some parent =>
            simp only [ih]
            cases core.metaclassWithin depth h parent with
            | none => rfl
            | some up =>
              obtain ⟨above, h₁⟩ := up
              cases above with
              | error fault => rfl
              | ok above => exact congrArg some (Hierarchy.attachToModule_forget h₁ id above)

theorem singletonClassOf_forget (v : Value) : core.singletonClassOf h.forget v =
    ((core.singletonClassOf h v).1, (core.singletonClassOf h v).2.forget) := by
  have hclass : core.classOf h.forget v = core.classOf h v := classOf_of_forget_eq h.forget_forget v
  rw [singletonClassOf, singletonClassOf, hclass, Hierarchy.get?_forget]
  cases h.get? (core.classOf h v) with
  | none => rfl
  | some r =>
    have hforbids : r.forget.forbidsSingletons = r.forbidsSingletons := rfl
    have hname : r.forget.name = r.name := rfl
    simp only [Option.map_some, hforbids, hname]
    split
    · rfl
    · cases v with
      | object o => simp only [Hierarchy.attachToObject_forget]
      | module id =>
        simp only [metaclassOf, metaclassWithin_forget,
          Hierarchy.size_of_forget_eq h.forget_forget]
        cases core.metaclassWithin (h.size + 1) h id <;> rfl
      | _ => rfl

end CoreClasses

namespace Hierarchy

variable {h h' : Hierarchy τ}

/-- Two requests come to the same and leave the same records, but for what these remember. -/
def Agrees {α : Type} (x y : α × Hierarchy τ) : Prop := y.1 = x.1 ∧ y.2.forget = x.2.forget

theorem Agrees.map {α β : Type} {x y : α × Hierarchy τ} (hagrees : Agrees x y) (f : α → β) :
    Agrees (f x.1, x.2) (f y.1, y.2) :=
  ⟨congrArg f hagrees.1, hagrees.2⟩

theorem Sound.ancestors_forget (hh : h.Sound) (id : ClassId) :
    Agrees (h.ancestors id) (h.forget.ancestors id) := by
  refine ⟨?_, ?_⟩
  · rw [hh.ancestors_fst, hh.forget.ancestors_fst, hh.linearize_forget]
  · rw [(hh.forget.recalls_ancestors id).forget_eq, (hh.recalls_ancestors id).forget_eq,
      forget_forget]

theorem Sound.isAncestor_forget (hh : h.Sound) (descendant ancestor : ClassId) :
    Agrees (h.isAncestor descendant ancestor) (h.forget.isAncestor descendant ancestor) := by
  obtain ⟨hlist, hleft⟩ := hh.ancestors_forget descendant
  exact ⟨congrArg (fun list => decide (ancestor ∈ list)) hlist, hleft⟩

/-- Stamping the descendants of a changed record does not depend on what is remembered about who
they are. -/
theorem Sound.publishTable_forget (hh : h.Sound) (owner : ClassId) {generation : Nat}
    (hle : h.generation ≤ generation) :
    (h.forget.publishTable owner generation).forget = (h.publishTable owner generation).forget := by
  have hstamped := hh.restamps_publishTable hle owner
  have hstamped' := hh.forget.restamps_publishTable hle owner
  rw [hstamped'.forget_eq, hstamped.forget_eq]
  refine ext_get? (fun id => ?_) rfl rfl rfl
  have hget : ({ h.forget with generation } : Hierarchy τ).get? id = (h.get? id).map Record.forget :=
    get?_forget h id
  have hget' : ({ h with generation } : Hierarchy τ).get? id = h.get? id := rfl
  simp only [get?_forget, get?_stampAll, hget, hget', hh.linearize_forget, Option.map_map]
  congr 1
  funext r
  simp only [Function.comp_apply]
  split <;> rfl

theorem Sound.write_forget (hh : h.Sound) {m : Method τ} (hle : h.generation ≤ m.generation) :
    (h.forget.write m).forget = (h.write m).forget := by
  have hchanged := hh.sound_modifyMethods m.owner fun t => t.insert m.name m
  have hpublished := hchanged.publishTable_forget m.owner hle
  rwa [forget_modifyMethods] at hpublished

theorem Sound.define_forget (hh : h.Sound) (owner : ClassId) (name : Symbol)
    (visibility : Visibility) (target : τ) (flags : MethodFlags) :
    Agrees (h.define owner name visibility target flags)
      (h.forget.define owner name visibility target flags) := by
  rw [define, define, get?_forget]
  cases h.get? owner with
  | none => exact ⟨rfl, h.forget_forget⟩
  | some r => exact ⟨rfl, hh.write_forget (Nat.le_succ _)⟩

theorem Sound.remove_forget (hh : h.Sound) (owner : ClassId) (name : Symbol) :
    Agrees (h.remove owner name) (h.forget.remove owner name) := by
  rw [remove, remove, get?_forget]
  cases h.get? owner with
  | none => exact ⟨rfl, h.forget_forget⟩
  | some r =>
    have hdefines : r.forget.defines name = r.defines name := rfl
    simp only [Option.map_some, hdefines]
    split
    · have hchanged := hh.sound_modifyMethods owner fun t => t.erase name
      have hpublished := hchanged.publishTable_forget owner (Nat.le_succ h.generation)
      rw [forget_modifyMethods] at hpublished
      exact ⟨rfl, hpublished⟩
    · exact ⟨rfl, h.forget_forget⟩

/-- The entry that is written is made from the one found, which is the same, and dated by the
generation, which a look-up does not move. -/
theorem Sound.revise_forget (hh : h.Sound) (owner : ClassId) (name : Symbol)
    {entry : Method τ → Nat → Method τ} (hentry : ∀ m g, (entry m g).generation = g) :
    Agrees (h.revise owner name entry) (h.forget.revise owner name entry) := by
  have hrec := hh.recalls_ancestors owner
  have hrec' := hh.forget.recalls_ancestors owner
  rw [revise, revise, get?_forget, hh.resolveDefined?_eq, hh.forget.resolveDefined?_eq,
    hh.first?_forget]
  cases h.get? owner with
  | none => exact ⟨rfl, h.forget_forget⟩
  | some r =>
    simp only [Option.map_some]
    cases (h.first? owner name).filter fun m => !m.isUndefined with
    | none => exact ⟨rfl, (hh.ancestors_forget owner).2⟩
    | some m =>
      have hgeneration : (h.forget.ancestors owner).2.generation = (h.ancestors owner).2.generation :=
        generation_of_forget_eq (hh.ancestors_forget owner).2
      have hle (h : Hierarchy τ) : h.generation ≤ (entry m (h.generation + 1)).generation := by
        rw [hentry]
        exact Nat.le_succ _
      refine ⟨rfl, ?_⟩
      rw [← hrec'.sound.write_forget (hle _), ← hrec.sound.write_forget (hle _),
        (hh.ancestors_forget owner).2, hgeneration]

/-- What commutes with forgetting does the same to hierarchies that differ by remembered lists. -/
theorem agrees_of_forget_eq {α : Type} {f : Hierarchy τ → α × Hierarchy τ}
    (hf : ∀ h : Hierarchy τ, h.Sound → Agrees (f h) (f h.forget)) (hh : h.Sound) (hh' : h'.Sound)
    (hforget : h'.forget = h.forget) : Agrees (f h) (f h') := by
  obtain ⟨hresult, hleft⟩ := hf h hh
  obtain ⟨hresult', hleft'⟩ := hf h' hh'
  rw [hforget] at hresult' hleft'
  exact ⟨hresult'.symm.trans hresult, hleft'.symm.trans hleft⟩

theorem Sound.wouldCycle_forget (hh : h.Sound) (descendant ancestor : ClassId) :
    Agrees (h.wouldCycle descendant ancestor) (h.forget.wouldCycle descendant ancestor) := by
  rw [wouldCycle, wouldCycle]
  split
  · exact ⟨rfl, h.forget_forget⟩
  · exact hh.isAncestor_forget ancestor descendant

theorem Sound.addInclude_forget (hh : h.Sound) (target module : ClassId) :
    Agrees (h.addInclude target module) (h.forget.addInclude target module) := by
  have hasked := hh.isAncestor_forget target module
  have hsound := (hh.recalls_isAncestor target module).sound
  have hsound' := (hh.forget.recalls_isAncestor target module).sound
  rw [addInclude, addInclude, get?_forget, get?_forget]
  cases h.get? target with
  | none => exact ⟨rfl, h.forget_forget⟩
  | some r =>
    cases h.get? module with
    | none => exact ⟨rfl, h.forget_forget⟩
    | some m =>
      have hmodule : m.forget.isModule = m.isModule := rfl
      simp only [Option.map_some, hmodule]
      split
      · generalize h.isAncestor target module = asked at hasked hsound
        generalize h.forget.isAncestor target module = asked' at hasked hsound'
        obtain ⟨below, h₁⟩ := asked
        obtain ⟨below', h₁'⟩ := asked'
        obtain ⟨rfl, hforget⟩ := hasked
        cases below' with
        | true => exact ⟨rfl, hforget⟩
        | false =>
          -- The two may remember different lists by now, so the next question is compared on its own.
          have hcycle := agrees_of_forget_eq
            (fun h hh => hh.wouldCycle_forget target module) hsound hsound' hforget
          simp only
          generalize h₁.wouldCycle target module = closed at hcycle
          generalize h₁'.wouldCycle target module = closed' at hcycle
          obtain ⟨b, h₂⟩ := closed
          obtain ⟨b', h₂'⟩ := closed'
          obtain ⟨rfl, hforget₂⟩ := hcycle
          cases b' with
          | true => exact ⟨rfl, hforget₂⟩
          | false =>
            refine ⟨rfl, ?_⟩
            have hcommutes (h : Hierarchy τ) := h.forget_regraph
              (f := fun r => { r with includes := r.includes ++ [module] }) (fun _ => rfl) target
            simp only [regraph] at hcommutes
            rw [hcommutes, hcommutes, hforget₂]
      · exact ⟨rfl, h.forget_forget⟩

theorem Sound.setSuperclass_forget (hh : h.Sound) (cls superclass : ClassId) :
    Agrees (h.setSuperclass cls superclass) (h.forget.setSuperclass cls superclass) := by
  have hcycle := hh.wouldCycle_forget cls superclass
  rw [setSuperclass, setSuperclass, get?_forget, get?_forget]
  cases h.get? cls with
  | none => exact ⟨rfl, h.forget_forget⟩
  | some r =>
    cases h.get? superclass with
    | none => exact ⟨rfl, h.forget_forget⟩
    | some s =>
      have hmodule (r : Record τ) : r.forget.isModule = r.isModule := rfl
      have hname : s.forget.name = s.name := rfl
      simp only [Option.map_some, hmodule, hname]
      split
      · exact ⟨rfl, h.forget_forget⟩
      · generalize h.wouldCycle cls superclass = closed at hcycle
        generalize h.forget.wouldCycle cls superclass = closed' at hcycle
        obtain ⟨b, h₁⟩ := closed
        obtain ⟨b', h₁'⟩ := closed'
        obtain ⟨rfl, hforget⟩ := hcycle
        cases b' with
        | true => exact ⟨rfl, hforget⟩
        | false =>
          refine ⟨rfl, ?_⟩
          have hcommutes (h : Hierarchy τ) := h.forget_regraph
            (f := fun r => { r with superclass := some superclass }) (fun _ => rfl) cls
          simp only [regraph] at hcommutes
          rw [hcommutes, hcommutes, hforget]

theorem Sound.apply_forget (hh : h.Sound) (e : Edit τ) : Agrees (e.apply h) (e.apply h.forget) := by
  cases e with
  | create name superclass flags =>
    simp only [Edit.apply, create_forget]
    exact ⟨rfl, forget_forget _⟩
  | attachToObject o name =>
    simp only [Edit.apply, attachToObject_forget]
    exact ⟨rfl, forget_forget _⟩
  | attachToModule module superclass =>
    simp only [Edit.apply, attachToModule_forget]
    exact ⟨rfl, forget_forget _⟩
  | define owner name visibility target flags =>
    exact (hh.define_forget owner name visibility target flags).map _
  | remove owner name => exact (hh.remove_forget owner name).map _
  | undefine owner name => exact (hh.revise_forget owner name fun _ _ => rfl).map _
  | addAlias owner new old => exact (hh.revise_forget owner old fun _ _ => rfl).map _
  | setVisibility owner name visibility => exact (hh.revise_forget owner name fun _ _ => rfl).map _
  | addInclude target module => exact (hh.addInclude_forget target module).map _
  | setSuperclass cls superclass => exact (hh.setSuperclass_forget cls superclass).map _
  | ancestors id =>
    exact (hh.ancestors_forget id).map fun list => (.ok (Edited.list list) : Except Fault Edited)
  | isAncestor descendant ancestor =>
    exact (hh.isAncestor_forget descendant ancestor).map fun b =>
      (.ok (Edited.truth b) : Except Fault Edited)
  | record id =>
    simp only [Edit.apply, record, get?_forget]
    cases h.get? id <;> exact ⟨rfl, h.forget_forget⟩

theorem Sound.walk_forget (hh : h.Sound) (id : ClassId) (name : Symbol) :
    Agrees (h.walk id name) (h.forget.walk id name) := by
  rw [hh.walk_eq, hh.forget.walk_eq, hh.view_forget]
  exact ⟨rfl, (hh.ancestors_forget id).2⟩

/-- A cache answers by the stamp of a record, which is not a thing that is remembered. -/
theorem Sound.walkCached_forget (hh : h.Sound) (cache : LookupCache τ) (id : ClassId)
    (name : Symbol) : (h.forget.walkCached cache id name).1 = (h.walkCached cache id name).1 ∧
      (h.forget.walkCached cache id name).2.1 = (h.walkCached cache id name).2.1 ∧
        (h.forget.walkCached cache id name).2.2.forget =
          (h.walkCached cache id name).2.2.forget := by
  rw [walkCached, walkCached, get?_forget]
  cases h.get? id with
  | none => exact ⟨rfl, rfl, h.forget_forget⟩
  | some r =>
    have hstamp : r.forget.stamp = r.stamp := rfl
    simp only [Option.map_some, hstamp]
    split
    · exact ⟨rfl, rfl, h.forget_forget⟩
    · obtain ⟨hwalk, hleft⟩ := hh.walk_forget id name
      simp only [hwalk]
      exact ⟨trivial, trivial, hleft⟩

/-- Whatever is done with a sound hierarchy, remembered lists have no influence on it. -/
theorem Sound.agrees_forget (hh : h.Sound) (op : Operation τ) :
    Agrees (op.apply h) (op.apply h.forget) := by
  have hforget := h.forget_forget
  cases op with
  | edit e => exact (hh.apply_forget e).map Operation.Result.edited
  | singletonClassOf core v =>
    simp only [Operation.apply, CoreClasses.singletonClassOf_forget]
    exact ⟨rfl, forget_forget _⟩
  | walk id name => exact (hh.walk_forget id name).map Operation.Result.walked
  | walkCached cache id name =>
    obtain ⟨hwalk, hcache, hleft⟩ := hh.walkCached_forget cache id name
    refine ⟨?_, hleft⟩
    simp only [Operation.apply, hwalk, hcache]
  | effectiveClass core v =>
    simp only [Operation.apply, CoreClasses.effectiveClass_of_forget_eq hforget]
    exact ⟨rfl, hforget⟩
  | describe core v =>
    simp only [Operation.apply, CoreClasses.describe_of_forget_eq hforget]
    exact ⟨rfl, hforget⟩
  | look => exact ⟨congrArg Operation.Result.view hforget, hforget⟩

theorem namesKnownClasses_of_forget_eq (hforget : h'.forget = h.forget) {op : Operation τ} :
    op.NamesKnownClasses h' ↔ op.NamesKnownClasses h := by
  have hknows (id : ClassId) : h'.Knows id ↔ h.Knows id := knows_iff_of_forget_eq hforget
  cases op with
  | edit e =>
    cases e with
    | create name superclass flags =>
      simp only [Operation.NamesKnownClasses, Edit.NamesKnownSuperclass, hknows]
    | attachToObject o name =>
      simp only [Operation.NamesKnownClasses, Edit.NamesKnownSuperclass, hknows, singletonOf?,
        objectSingletons_of_forget_eq hforget]
    | attachToModule module superclass =>
      have hmetaclass : (h'.get? module).map Record.metaclass = (h.get? module).map Record.metaclass :=
        map_get?_of_forget_eq (fun _ => rfl) hforget module
      have hany (h : Hierarchy τ) : (h.get? module).any (fun r => r.metaclass.isNone) =
          ((h.get? module).map Record.metaclass).any Option.isNone := by
        cases h.get? module <;> rfl
      simp only [Operation.NamesKnownClasses, Edit.NamesKnownSuperclass, hknows, hany, hmetaclass]
    | _ => exact Iff.rfl
  | singletonClassOf core v =>
    simp only [Operation.NamesKnownClasses, CoreClasses.KnownIn, hknows]
  | _ => exact Iff.rfl

/-- Two sound hierarchies that differ by remembered lists only are never told apart. -/
theorem Sound.results_of_forget_eq (hh : h.Sound) (hh' : h'.Sound)
    (hforget : h'.forget = h.forget) {ops : List (Operation τ)} (hops : h.Supports ops) :
    h'.results ops = h.results ops ∧ (h'.after ops).forget = (h.after ops).forget := by
  induction ops generalizing h h' with
  | nil => exact ⟨rfl, hforget⟩
  | cons op ops ih =>
    obtain ⟨hop, hrest⟩ := hops
    have hop' := (namesKnownClasses_of_forget_eq hforget).mpr hop
    obtain ⟨hresult, hleft⟩ := agrees_of_forget_eq
      (fun h hh => hh.agrees_forget op) hh hh' hforget
    obtain ⟨hresults, hafter⟩ := ih (hh.evolves_operation hop).sound
      (hh'.evolves_operation hop').sound hleft hrest
    exact ⟨by rw [results, results, hresult, hresults], hafter⟩

/-- Whatever was done with a hierarchy, and whatever lists that left behind, the ancestors of a
record are those by the superclasses and includes alone, and asking for them changes no result of
anything that is done later. -/
theorem ancestors_after {ops later : List (Operation τ)}
    (hops : (empty : Hierarchy τ).Supports (ops ++ later)) (id : ClassId) :
    let h : Hierarchy τ := empty.after ops
    (∀ depth, h.size < depth → h.linearizeWithin depth id = some (h.ancestors id).1) ∧
      (h.ancestors id).2.results later = h.results later ∧
        ((h.ancestors id).2.after later).forget = (h.after later).forget := by
  intro h
  obtain ⟨hbefore, hlater⟩ := throughout_append.mp hops
  have hh : h.Sound := sound_after hbefore
  have hrec := hh.recalls_ancestors id
  refine ⟨fun depth hdepth => ?_, hh.results_of_forget_eq hrec.sound hrec.forget_eq hlater⟩
  rw [hh.ancestors_fst]
  exact hh.linearizeWithin_eq (Nat.lt_of_le_of_lt (h.height_le_size id) hdepth)

/-- Asking a class for ancestors between the inclusion of a module in a module that it includes and
the next write does not show. -/
theorem ancestors_after_nested_include :
    let ops : List (Operation Unit) :=
      [.edit (.create "A" none {}), .edit (.create "M" none { isModule := true }),
        .edit (.create "N" none { isModule := true }), .edit (.create "B" (some ⟨0⟩) {}),
        .edit (.addInclude ⟨0⟩ ⟨1⟩), .walk ⟨3⟩ ⟨"m"⟩, .edit (.addInclude ⟨1⟩ ⟨2⟩)]
    let later : List (Operation Unit) :=
      [.edit (.define ⟨2⟩ ⟨"m"⟩ .pub () {}), .walk ⟨3⟩ ⟨"m"⟩, .edit (.setSuperclass ⟨0⟩ ⟨3⟩), .look]
    let h : Hierarchy Unit := empty.after ops
    h.linearizeWithin 5 ⟨3⟩ = some [⟨3⟩, ⟨0⟩, ⟨1⟩, ⟨2⟩] ∧ (h.ancestors ⟨3⟩).1 = [⟨3⟩, ⟨0⟩, ⟨1⟩, ⟨2⟩] ∧
      (h.ancestors ⟨3⟩).2.results later = h.results later := by
  intro ops later h
  have hops : (empty : Hierarchy Unit).Supports (ops ++ later) := by decide +kernel
  have hsize : h.size < 5 := by decide +kernel
  obtain ⟨hlist, hresults, -⟩ := ancestors_after hops ⟨3⟩
  have hcomputed : h.linearizeWithin 5 ⟨3⟩ = some [⟨3⟩, ⟨0⟩, ⟨1⟩, ⟨2⟩] := by decide +kernel
  refine ⟨hcomputed, ?_, hresults⟩
  exact Option.some.inj ((hlist 5 hsize).symm.trans hcomputed)

end Hierarchy

end LateBinding
