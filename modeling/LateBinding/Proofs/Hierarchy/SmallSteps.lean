import LateBinding.Proofs.Hierarchy.Lasting

namespace LateBinding

variable {τ : Type}

namespace Hierarchy

/-- A property of hierarchies survives each of the small steps of which the operations are made. -/
structure KeptBySmallSteps (P : Hierarchy τ → Prop) : Prop where
  create : ∀ {h} name superclass flags, P h → P (h.create name superclass flags).2
  modify : ∀ {h} id {f : Record τ → Record τ}, (∀ r, (f r).memo = r.memo) → P h → P (h.modify id f)
  remember : ∀ {h id list}, h.Lists id list → P h → P (h.remember id list)
  publishGraph : ∀ {h}, P h → P h.publishGraph
  dated : ∀ {h} generation, P h → P { h with generation }
  attached : ∀ {h} objectSingletons, P h → P { h with objectSingletons }

namespace KeptBySmallSteps

variable {P : Hierarchy τ → Prop} {h h' : Hierarchy τ}

private theorem mixInAllKept {f : Hierarchy τ → ClassId → Option (List ClassId × Hierarchy τ)}
    (hf : ∀ {h m list h'}, P h → f h m = some (list, h') → P h' ∧ h.Recollects h')
    {inherited ms listed own : List ClassId} (hP : P h)
    (hx : mixInAllKept f inherited ms listed h = some (own, h')) : P h' ∧ h.Recollects h' := by
  induction ms generalizing h listed with
  | nil =>
    obtain ⟨-, rfl⟩ := Prod.mk.inj (Option.some.inj hx)
    exact ⟨hP, .refl h⟩
  | cons m ms ih =>
    rw [Hierarchy.mixInAllKept] at hx
    obtain ⟨⟨ancestors, h₁⟩, hm, hrest⟩ := Option.bind_eq_some_iff.mp hx
    obtain ⟨hP₁, hrec₁⟩ := hf hP hm
    obtain ⟨hP₂, hrec₂⟩ := ih hP₁ hrest
    exact ⟨hP₂, hrec₁.trans hrec₂⟩

/-- The recursion along the graph remembers a list where it has found one, and does nothing else. -/
theorem ancestorsWithin (hkept : KeptBySmallSteps P) {depth : Nat} {id : ClassId}
    {list : List ClassId} (hP : P h)
    (hx : Hierarchy.ancestorsWithin depth h id = some (list, h')) : P h' := by
  induction depth generalizing h h' id list with
  | zero => cases hx
  | succ depth ih =>
    have hbelow {h h' : Hierarchy τ} {m : ClassId} {list : List ClassId} (hP : P h)
        (hm : Hierarchy.ancestorsWithin depth h m = some (list, h')) : P h' ∧ h.Recollects h' :=
      ⟨ih hP hm, (lists_of_ancestorsWithin hm).2⟩
    have hlist := (lists_of_ancestorsWithin hx).1
    cases hr : h.get? id with
    | none =>
      rw [ancestorsWithin_unknown hr] at hx
      obtain ⟨-, rfl⟩ := Prod.mk.inj (Option.some.inj hx)
      exact hP
    | some r =>
      cases hmemo : r.remembered? h.epoch with
      | some list' =>
        simp only [Hierarchy.ancestorsWithin, hr, hmemo, Option.some.injEq, Prod.mk.injEq] at hx
        obtain ⟨-, rfl⟩ := hx
        exact hP
      | none =>
        rw [ancestorsWithin_succ hr hmemo] at hx
        obtain ⟨⟨inherited, h₁⟩, hsuper, hrest⟩ := Option.bind_eq_some_iff.mp hx
        obtain ⟨⟨own, h₂⟩, hmixed, heq⟩ := Option.map_eq_some_iff.mp hrest
        obtain ⟨rfl, rfl⟩ := Prod.mk.inj heq
        obtain ⟨hP₁, hrec₁⟩ : P h₁ ∧ h.Recollects h₁ := by
          cases hs : r.superclass with
          | none =>
            rw [hs] at hsuper
            obtain ⟨-, rfl⟩ := Prod.mk.inj (Option.some.inj hsuper)
            exact ⟨hP, .refl h⟩
          | some parent =>
            rw [hs] at hsuper
            exact hbelow hP hsuper
        obtain ⟨hP₂, hrec₂⟩ := mixInAllKept hbelow hP₁ hmixed
        exact hkept.remember ((hrec₁.trans hrec₂).lists_iff.mpr hlist) hP₂

theorem ancestors (hkept : KeptBySmallSteps P) (hP : P h) (id : ClassId) :
    P (h.ancestors id).2 := by
  rw [Hierarchy.ancestors]
  cases hx : Hierarchy.ancestorsWithin (h.size + 1) h id with
  | none => exact hP
  | some x => exact hkept.ancestorsWithin hP hx

theorem wouldCycle (hkept : KeptBySmallSteps P) (hP : P h) (descendant ancestor : ClassId) :
    P (h.wouldCycle descendant ancestor).2 := by
  rw [Hierarchy.wouldCycle]
  split
  · exact hP
  · exact hkept.ancestors hP ancestor

theorem stampIfBelow (hkept : KeptBySmallSteps P) (hP : P h) (owner : ClassId) (generation : Nat)
    (id : ClassId) : P (stampIfBelow owner generation h id) := by
  have hstamp {g : Hierarchy τ} (hg : P g) : P (g.stamp generation id) :=
    hkept.modify id (fun _ => rfl) hg
  have hasked : P (h.isAncestor id owner).2 := hkept.ancestors hP id
  rw [Hierarchy.stampIfBelow]
  split
  · exact hstamp hP
  · simp only
    split
    · exact hstamp hasked
    · exact hasked

theorem publishTable (hkept : KeptBySmallSteps P) (hP : P h) (owner : ClassId) (generation : Nat) :
    P (h.publishTable owner generation) := by
  have hfold (ids : List ClassId) {g : Hierarchy τ} (hg : P g) :
      P (ids.foldl (Hierarchy.stampIfBelow owner generation) g) := by
    induction ids generalizing g with
    | nil => exact hg
    | cons id ids ih => exact ih (hkept.stampIfBelow hg owner generation id)
  exact hfold h.ids (hkept.dated generation hP)

theorem write (hkept : KeptBySmallSteps P) (hP : P h) (m : Method τ) : P (h.write m) :=
  hkept.publishTable (hkept.modify m.owner (by exact fun _ => rfl) hP) m.owner m.generation

theorem revise (hkept : KeptBySmallSteps P) (hP : P h) (owner : ClassId) (name : Symbol)
    (entry : Method τ → Nat → Method τ) : P (h.revise owner name entry).2 := by
  have hasked : P (h.ancestors owner).2 := hkept.ancestors hP owner
  rw [Hierarchy.revise]
  split
  · exact hP
  · split
    · rename_i heq
      obtain rfl := congrArg Prod.snd heq
      exact hasked
    · rename_i heq
      obtain rfl := congrArg Prod.snd heq
      exact hkept.write hasked _

theorem table (hkept : KeptBySmallSteps P) (hP : P h) {e : Edit τ} {owner : ClassId}
    (he : e.table? = some owner) : P (e.apply h).2 := by
  cases e with
  | define owner name visibility target flags =>
    simp only [Edit.apply, define]
    split
    · exact hP
    · exact hkept.write hP _
  | remove owner name =>
    simp only [Edit.apply, Edit.finished, remove]
    split
    · exact hP
    · split
      · exact hkept.publishTable (hkept.modify owner (by exact fun _ => rfl) hP) ..
      · exact hP
  | undefine | addAlias | setVisibility => exact hkept.revise hP ..
  | _ => cases he

theorem addInclude (hkept : KeptBySmallSteps P) (hP : P h) (target module : ClassId) :
    P (h.addInclude target module).2 := by
  have hasked : P (h.isAncestor target module).2 := hkept.ancestors hP target
  rw [Hierarchy.addInclude]
  split
  · exact hP
  · exact hP
  · split
    · split
      · rename_i heq
        obtain rfl := congrArg Prod.snd heq
        exact hasked
      · rename_i heq
        obtain rfl := congrArg Prod.snd heq
        have hagain := hkept.wouldCycle hasked target module
        split
        · rename_i heq'
          obtain rfl := congrArg Prod.snd heq'
          exact hagain
        · rename_i heq'
          obtain rfl := congrArg Prod.snd heq'
          exact hkept.publishGraph (hkept.modify target (fun _ => rfl) hagain)
    · exact hP

theorem setSuperclass (hkept : KeptBySmallSteps P) (hP : P h) (cls superclass : ClassId) :
    P (h.setSuperclass cls superclass).2 := by
  have hasked : P (h.wouldCycle cls superclass).2 := hkept.wouldCycle hP cls superclass
  rw [Hierarchy.setSuperclass]
  split
  · exact hP
  · exact hP
  · split
    · exact hP
    · split
      · rename_i heq
        obtain rfl := congrArg Prod.snd heq
        exact hasked
      · rename_i heq
        obtain rfl := congrArg Prod.snd heq
        exact hkept.publishGraph (hkept.modify cls (fun _ => rfl) hasked)

theorem attachToObject (hkept : KeptBySmallSteps P) (hP : P h) (o : ObjectRef) (name : String) :
    P (h.attachToObject o name).2 := by
  rw [Hierarchy.attachToObject]
  split
  · exact hP
  · exact hkept.attached _ (hkept.create name (some o.declaredClass) { isSingleton := true } hP)

theorem attachToModule (hkept : KeptBySmallSteps P) (hP : P h) (module superclass : ClassId) :
    P (h.attachToModule module superclass).2 := by
  rw [Hierarchy.attachToModule]
  split
  · exact hP
  · rename_i r _
    split
    · exact hP
    · have hmade : P (h.create s!"#<Class:{r.name}>" (some superclass) { isSingleton := true }).2 :=
        hkept.create _ _ _ hP
      exact hkept.modify module (fun _ => rfl) hmade

theorem metaclassWithin (hkept : KeptBySmallSteps P) {core : CoreClasses} {depth : Nat}
    {id : ClassId} {made : Except Fault ClassId} (hP : P h)
    (hmade : core.metaclassWithin depth h id = some (made, h')) : P h' := by
  induction depth generalizing h h' id made with
  | zero => cases hmade
  | succ depth ih =>
    have hattach {g : Hierarchy τ} {above : ClassId} (hg : P g)
        (heq : some (g.attachToModule id above) = some (made, h')) : P h' := by
      have hP' := hkept.attachToModule hg id above
      rwa [Option.some.inj heq] at hP'
    rw [CoreClasses.metaclassWithin] at hmade
    split at hmade
    · obtain ⟨-, rfl⟩ := Prod.mk.inj (Option.some.inj hmade)
      exact hP
    · split at hmade
      · obtain ⟨-, rfl⟩ := Prod.mk.inj (Option.some.inj hmade)
        exact hP
      · split at hmade
        · exact hattach hP hmade
        · split at hmade
          · exact hattach hP hmade
          · obtain ⟨⟨above, h₁⟩, hup, hrest⟩ := Option.bind_eq_some_iff.mp hmade
            cases above with
            | error fault =>
              obtain ⟨-, rfl⟩ := Prod.mk.inj (Option.some.inj hrest)
              exact ih hP hup
            | ok above => exact hattach (ih hP hup) hrest

theorem singletonClassOf (hkept : KeptBySmallSteps P) (hP : P h) (core : CoreClasses) (v : Value) :
    P (core.singletonClassOf h v).2 := by
  rw [CoreClasses.singletonClassOf]
  split
  · exact hP
  · rename_i r hr
    split
    · exact hP
    · split
      · exact hkept.attachToObject hP ..
      · rename_i id
        rw [CoreClasses.metaclassOf]
        cases hmade : core.metaclassWithin (h.size + 1) h id with
        | none => exact hP
        | some made => exact hkept.metaclassWithin hP hmade
      · exact hP

theorem apply (hkept : KeptBySmallSteps P) (hP : P h) (e : Edit τ) : P (e.apply h).2 := by
  cases e with
  | create name superclass flags => exact hkept.create name superclass flags hP
  | attachToObject o name => exact hkept.attachToObject hP o name
  | attachToModule module superclass => exact hkept.attachToModule hP module superclass
  | define | remove | undefine | addAlias | setVisibility => exact hkept.table hP rfl
  | addInclude target module => exact hkept.addInclude hP target module
  | setSuperclass cls superclass => exact hkept.setSuperclass hP cls superclass
  | ancestors id => exact hkept.ancestors hP id
  | isAncestor descendant ancestor => exact hkept.ancestors hP descendant
  | record id => exact hP

theorem operation (hkept : KeptBySmallSteps P) (hP : P h) (op : Operation τ) : P (op.apply h).2 := by
  cases op with
  | edit e => exact hkept.apply hP e
  | singletonClassOf core v => exact hkept.singletonClassOf hP core v
  | walk id name => exact hkept.ancestors hP id
  | walkCached cache id name =>
    simp only [Operation.apply, walkCached]
    split
    · exact hP
    · split
      · exact hP
      · exact hkept.ancestors hP id
  | effectiveClass core v => exact hP
  | describe core v => exact hP
  | look => exact hP

/-- What every small step keeps is kept whatever operations are carried out. -/
theorem after (hkept : KeptBySmallSteps P) (hP : P h) (ops : List (Operation τ)) :
    P (h.after ops) := by
  induction ops generalizing h with
  | nil => exact hP
  | cons op ops ih => exact ih (hkept.operation hP op)

end KeptBySmallSteps

end Hierarchy

end LateBinding
