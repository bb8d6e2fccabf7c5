import LateBinding.Proofs.Hierarchy.Edits

namespace LateBinding

variable {τ : Type}

namespace Hierarchy

variable {h h' : Hierarchy τ}

theorem exists_own?_of_first? {id : ClassId} {name : Symbol} {m : Method τ}
    (hm : h.first? id name = some m) : ∃ x, h.own? x name = some m := by
  obtain ⟨x, -, hx⟩ := List.exists_of_findSome?_eq_some hm
  exact ⟨x, hx⟩

theorem own?_create (h : Hierarchy τ) (name : String) (superclass : Option ClassId)
    (flags : ClassFlags) : (h.create name superclass flags).2.own? = h.own? := by
  funext id x
  rw [own?, own?, get?_create]
  split
  · rename_i hid
    subst hid
    rw [get?_eq_none_iff.mpr h.not_knows_size]
    rfl
  · rfl

theorem own?_attachToObject (h : Hierarchy τ) (o : ObjectRef) (name : String) :
    (h.attachToObject o name).2.own? = h.own? := by
  rw [attachToObject]
  split
  · rfl
  · exact h.own?_create name (some o.declaredClass) { isSingleton := true }

theorem own?_attachToModule (h : Hierarchy τ) (module superclass : ClassId) :
    (h.attachToModule module superclass).2.own? = h.own? := by
  rw [attachToModule]
  split
  · rfl
  · rename_i r hr
    split
    · rfl
    · rw [← h.own?_create s!"#<Class:{r.name}>" (some superclass) { isSingleton := true }]
      funext id x
      refine own?_of_map_eq x ?_
      rw [get?_modify]
      split
      · rw [Option.map_map]
        rfl
      · rfl

theorem own?_regraph {f : Record τ → Record τ} (hf : ∀ r, (f r).methods = r.methods)
    (t : ClassId) : (h.regraph t f).own? = h.own? := by
  funext id x
  exact own?_of_map_eq x (map_get?_regraph hf (fun _ _ => rfl) t id)

theorem Recalls.own?_eq (hrec : h.Recalls h') : h'.own? = h.own? := by
  funext id x
  exact own?_of_forget_eq hrec.forget_eq id x

theorem Sound.own?_addInclude (hh : h.Sound) (target module : ClassId) :
    (h.addInclude target module).2.own? = h.own? := by
  rcases hh.addInclude_cases target module with hrec | ⟨h₁, hrec, -, -, heq⟩
  · exact hrec.own?_eq
  · rw [heq, own?_regraph, hrec.own?_eq]
    intro r
    rfl

theorem Sound.own?_setSuperclass (hh : h.Sound) (cls superclass : ClassId) :
    (h.setSuperclass cls superclass).2.own? = h.own? := by
  rcases hh.setSuperclass_cases cls superclass with hrec | ⟨h₁, -, -, hrec, -, -, -, -, -, heq⟩
  · exact hrec.own?_eq
  · rw [heq, own?_regraph, hrec.own?_eq]
    intro r
    rfl

theorem Sound.own?_apply_of_table?_eq_none (hh : h.Sound) {e : Edit τ} (he : e.table? = none) :
    (e.apply h).2.own? = h.own? := by
  cases e with
  | create name superclass flags => exact h.own?_create name superclass flags
  | attachToObject o name => exact h.own?_attachToObject o name
  | attachToModule module superclass => exact h.own?_attachToModule module superclass
  | addInclude target module => exact hh.own?_addInclude target module
  | setSuperclass cls superclass => exact hh.own?_setSuperclass cls superclass
  | ancestors id => exact (hh.recalls_ancestors id).own?_eq
  | isAncestor descendant ancestor => exact (hh.recalls_isAncestor descendant ancestor).own?_eq
  | record id => rfl
  | _ => cases he

theorem Sound.own?_publish (hh : h.Sound) (owner : ClassId)
    (f : Table Symbol (Method τ) → Table Symbol (Method τ)) {generation : Nat}
    (hle : h.generation ≤ generation) (id : ClassId) (x : Symbol) :
    ((h.modifyMethods owner f).publishTable owner generation).own? id x =
      if owner = id then (h.get? id).bind fun r => (f r.methods).get? x else h.own? id x := by
  have hchanged := hh.sound_modifyMethods owner f
  have hstamps : ((h.modifyMethods owner f).publishTable owner generation).own? id x =
      (h.modifyMethods owner f).own? id x := (hchanged.restamps_publishTable hle owner).own?_eq id x
  rw [hstamps, own?, modifyMethods, get?_modify]
  split
  · cases h.get? id <;> rfl
  · rfl

/-- An entry is written into the table of its owner under its name, and nowhere else. -/
theorem Sound.own?_write (hh : h.Sound) {m : Method τ} (hle : h.generation ≤ m.generation)
    (howner : h.Knows m.owner) (id : ClassId) (x : Symbol) : (h.write m).own? id x =
      if id = m.owner ∧ x = m.name then some m else h.own? id x := by
  refine (hh.own?_publish m.owner (fun t => t.insert m.name m) hle id x).trans ?_
  obtain ⟨r, hr⟩ := howner.get?
  simp only [Table.get?_insert]
  by_cases hid : id = m.owner
  · subst hid
    rw [if_pos rfl, hr, Option.bind_some, own?, hr]
    simp only [true_and, eq_comm (a := x)]
    rfl
  · rw [if_neg (Ne.symm hid), if_neg fun hboth => hid hboth.1]

/-- An entry is taken out of the table of one record, and nothing else. -/
theorem Sound.own?_erase (hh : h.Sound) (owner : ClassId) (name : Symbol) (id : ClassId)
    (x : Symbol) :
    ((h.modifyMethods owner fun t => t.erase name).publishTable owner (h.generation + 1)).own? id x =
      if id = owner ∧ x = name then none else h.own? id x := by
  rw [hh.own?_publish owner _ (Nat.le_succ _)]
  simp only [Table.get?_erase]
  by_cases hid : id = owner
  · subst hid
    rw [if_pos rfl]
    cases hr : h.get? id with
    | none => simp [own?, hr]
    | some r =>
      rw [Option.bind_some, own?, hr]
      simp only [true_and, eq_comm (a := x)]
      rfl
  · rw [if_neg (Ne.symm hid), if_neg fun hboth => hid hboth.1]

theorem Recalls.own?_write (hrec : h.Recalls h') {e : Edit τ} {m : Method τ} (hputs : e.Puts h m)
    (id : ClassId) (x : Symbol) : (h'.write m).own? id x =
      if id = m.owner ∧ x = m.name then some m else h.own? id x := by
  have hle : h'.generation ≤ m.generation := by
    rw [generation_of_forget_eq hrec.forget_eq, hputs.generation_eq]
    exact Nat.le_succ _
  have howner : h'.Knows m.owner := (knows_iff_of_forget_eq hrec.forget_eq).mpr hputs.knows
  rw [hrec.sound.own?_write hle howner, hrec.own?_eq]

/-- The stamp of a record is the date of the entry that was written into its table. -/
theorem Recalls.stampOf?_write (hrec : h.Recalls h') {e : Edit τ} {m : Method τ}
    (hputs : e.Puts h m) : (h'.write m).stampOf? m.owner = some m.generation := by
  have howner : h'.Knows m.owner := (knows_iff_of_forget_eq hrec.forget_eq).mpr hputs.knows
  have hdated : m.generation = h'.generation + 1 := by
    rw [generation_of_forget_eq hrec.forget_eq, hputs.generation_eq]
  have hpublishes := hrec.sound.publishes_publishTable m.owner fun t => t.insert m.name m
  have hstamp := hpublishes.stamp_eq howner
  rw [if_pos (hrec.sound.self_mem_linearize howner), ← hdated] at hstamp
  exact hstamp

/-- An entry of a table was there before the request, or it is the one that the request wrote. -/
theorem Sound.own?_apply_cases (hh : h.Sound) {e : Edit τ} {id : ClassId} {x : Symbol}
    {m : Method τ} (hm : (e.apply h).2.own? id x = some m) :
    h.own? id x = some m ∨
      e.Puts h m ∧ id = m.owner ∧ x = m.name ∧ (e.apply h).2.stampOf? id = some m.generation := by
  cases he : e.table? with
  | none =>
    rw [hh.own?_apply_of_table?_eq_none he] at hm
    exact .inl hm
  | some owner =>
    cases hh.tableOutcome he with
    | written hrec hputs heq =>
      rw [heq, hrec.own?_write hputs] at hm
      split at hm
      · rename_i hslot
        obtain rfl := Option.some.inj hm
        refine .inr ⟨hputs, hslot.1, hslot.2, ?_⟩
        rw [heq, hslot.1]
        exact hrec.stampOf?_write hputs
      · exact .inl hm
    | removed hremove hold heq =>
      rw [heq, hh.own?_erase] at hm
      split at hm
      · cases hm
      · exact .inl hm
    | refused hrec heq =>
      rw [heq, hrec.own?_eq] at hm
      exact .inl hm

/-- An entry stays, or another one takes its place, unless it is removed. -/
theorem Sound.own?_kept (hh : h.Sound) {id : ClassId} {name : Symbol} {m : Method τ}
    (hm : h.own? id name = some m) {e : Edit τ} (he : e ≠ .remove id name) :
    ∃ m', (e.apply h).2.own? id name = some m' := by
  cases htable : e.table? with
  | none => exact ⟨m, by rw [hh.own?_apply_of_table?_eq_none htable, hm]⟩
  | some owner =>
    cases hh.tableOutcome htable with
    | written hrec hputs heq =>
      rw [heq, hrec.own?_write hputs]
      split
      · exact ⟨_, rfl⟩
      · exact ⟨m, hm⟩
    | removed hremove hold heq =>
      rw [heq, hh.own?_erase, if_neg]
      · exact ⟨m, hm⟩
      · rintro ⟨rfl, rfl⟩
        exact he hremove
    | refused hrec heq => exact ⟨m, by rw [heq, hrec.own?_eq, hm]⟩

/-- A property of entries that a request keeps: those that it defines have it, the tombstone that it
leaves has it, and so does every copy of a method. -/
structure Keeps (e : Edit τ) (p : Symbol → Method τ → Prop) : Prop where
  define : ∀ {owner name visibility target flags}, e = .define owner name visibility target flags →
    ∀ generation, p name (.new name owner visibility target flags generation)
  undefine : ∀ {owner name}, e = .undefine owner name →
    ∀ generation, p name (.tombstone name owner generation)
  copy : ∀ {name m}, p name m → m.isUndefined = false → ∀ name' m', m'.target = m.target →
    m'.flags = m.flags → p name' m'

theorem Sound.entries_apply {p : Symbol → Method τ → Prop} (hh : h.Sound)
    (hp : ∀ id name m, h.own? id name = some m → p name m) {e : Edit τ} (he : Keeps e p) :
    ∀ id name m, (e.apply h).2.own? id name = some m → p name m := by
  intro id x m hm
  have hfound {owner : ClassId} {name : Symbol} {m : Method τ}
      (hview : h.view owner name = .defined m) : p name m ∧ m.isUndefined = false := by
    obtain ⟨hfirst, hdefined⟩ := view_eq_defined_iff.mp hview
    obtain ⟨y, hy⟩ := exists_own?_of_first? hfirst
    exact ⟨hp y name m hy, hdefined⟩
  rcases hh.own?_apply_cases hm with hold | ⟨hputs, rfl, rfl, -⟩
  · exact hp id x m hold
  · cases hputs with
    | define howner name visibility target flags => exact he.define rfl _
    | undefine hview => exact he.undefine rfl _
    | addAlias hview new =>
      exact he.copy (hfound hview).1 (hfound hview).2 _ (.aliased _ new _ _) rfl rfl
    | setVisibility hview visibility =>
      exact he.copy (hfound hview).1 (hfound hview).2 _ (.withVisibility _ _ visibility _) rfl rfl

end Hierarchy

end LateBinding
