import LateBinding.Proofs.Hierarchy.Walk

namespace LateBinding

variable {τ : Type}

namespace Hierarchy

/-- Nothing that a look-up from a record depends on has changed. -/
structure SameFrom (h h' : Hierarchy τ) (id : ClassId) : Prop where
  linearize_eq : h'.linearize id = h.linearize id
  first_eq : ∀ name, h'.first? id name = h.first? id name
  kept : ∀ {list}, h.recalled? id = some list → h'.recalled? id = some list

/-- One sound hierarchy is a later state of another. -/
structure Evolves (h h' : Hierarchy τ) : Prop where
  size_le : h.size ≤ h'.size
  stamp_le : ∀ {id g g'}, h.stampOf? id = some g → h'.stampOf? id = some g' → g ≤ g'
  same : ∀ {id g}, h.stampOf? id = some g → h'.stampOf? id = some g → h.SameFrom h' id
  sound : h'.Sound

variable {h h' h'' : Hierarchy τ}

theorem stampOf?_of_knows {id : ClassId} (hid : h.Knows id) : ∃ g, h.stampOf? id = some g := by
  obtain ⟨r, hr⟩ := hid.get?
  exact ⟨r.stamp, by simp [stampOf?, hr]⟩

theorem knows_of_stampOf? {id : ClassId} {g : Nat} (hg : h.stampOf? id = some g) : h.Knows id := by
  obtain ⟨r, hr, -⟩ := Option.map_eq_some_iff.mp hg
  exact .of_get? hr

theorem SameFrom.refl (h : Hierarchy τ) (id : ClassId) : h.SameFrom h id :=
  ⟨rfl, fun _ => rfl, fun hlist => hlist⟩

theorem SameFrom.trans {id : ClassId} (hfirst : h.SameFrom h' id) (hthen : h'.SameFrom h'' id) :
    h.SameFrom h'' id where
  linearize_eq := hthen.linearize_eq.trans hfirst.linearize_eq
  first_eq name := (hthen.first_eq name).trans (hfirst.first_eq name)
  kept hlist := hthen.kept (hfirst.kept hlist)

theorem SameFrom.view_eq {id : ClassId} (hsame : h.SameFrom h' id) (name : Symbol) :
    h'.view id name = h.view id name := by
  rw [view, hsame.first_eq, ← view]

theorem Sound.evolves_refl (hh : h.Sound) : h.Evolves h where
  size_le := Nat.le_refl _
  stamp_le hg hg' := by
    rw [hg, Option.some.injEq] at hg'
    exact hg'.le
  same _ _ := .refl h _
  sound := hh

/-- A stamp that is the same at both ends was the same in between, since stamps never go down. -/
theorem Evolves.trans (hfirst : h.Evolves h') (hthen : h'.Evolves h'') : h.Evolves h'' where
  size_le := hfirst.size_le.trans hthen.size_le
  stamp_le {id g g''} hg hg'' := by
    have hid' : h'.Knows id := Nat.lt_of_lt_of_le (knows_of_stampOf? hg) hfirst.size_le
    obtain ⟨g', hg'⟩ := stampOf?_of_knows hid'
    exact (hfirst.stamp_le hg hg').trans (hthen.stamp_le hg' hg'')
  same {id g} hg hg'' := by
    have hid' : h'.Knows id := Nat.lt_of_lt_of_le (knows_of_stampOf? hg) hfirst.size_le
    obtain ⟨g', hg'⟩ := stampOf?_of_knows hid'
    have hbelow := hfirst.stamp_le hg hg'
    have habove := hthen.stamp_le hg' hg''
    obtain rfl : g' = g := by omega
    exact (hfirst.same hg hg').trans (hthen.same hg' hg'')
  sound := hthen.sound

theorem Evolves.knows (hev : h.Evolves h') {id : ClassId} (hid : h.Knows id) : h'.Knows id :=
  Nat.lt_of_lt_of_le hid hev.size_le

/-- If stamps stay what they are and nothing is taken back, the hierarchy evolves. -/
theorem Sound.evolves_of_sameFrom (hh : h.Sound) (hh' : h'.Sound) (hsize : h.size ≤ h'.size)
    (hstamp : ∀ id, h.Knows id → h'.stampOf? id = h.stampOf? id)
    (hsame : ∀ id, h.Knows id → h.SameFrom h' id) : h.Evolves h' where
  size_le := hsize
  stamp_le hg hg' := by
    rw [hstamp _ (knows_of_stampOf? hg)] at hg'
    exact hh.evolves_refl.stamp_le hg hg'
  same hg _ := hsame _ (knows_of_stampOf? hg)
  sound := hh'

theorem Sound.evolves_of_recalls (hh : h.Sound) (hrec : h.Recalls h') : h.Evolves h' := by
  refine hh.evolves_of_sameFrom hrec.sound (size_of_forget_eq hrec.forget_eq).ge
    (fun id _ => stampOf?_of_forget_eq hrec.forget_eq id) fun id _ => ?_
  exact ⟨hrec.linearize_eq hh.toStratified id, hrec.first?_eq hh.toStratified id, hrec.kept⟩

/-- The hierarchy with the method table of one record changed. -/
def modifyMethods (h : Hierarchy τ) (owner : ClassId)
    (f : Table Symbol (Method τ) → Table Symbol (Method τ)) : Hierarchy τ :=
  h.modify owner fun r => { r with methods := f r.methods }

/-- One hierarchy comes from another by a published change of one method table. -/
structure Publishes (owner : ClassId) (h h' : Hierarchy τ) : Prop where
  size_eq : h'.size = h.size
  linearize_eq : ∀ id, h'.linearize id = h.linearize id
  own_eq : ∀ {id} name, id ≠ owner → h'.own? id name = h.own? id name
  stamp_eq : ∀ {id}, h.Knows id →
    h'.stampOf? id = if owner ∈ h.linearize id then some (h.generation + 1) else h.stampOf? id
  kept : ∀ {id list}, h.recalled? id = some list → h'.recalled? id = some list
  sound : h'.Sound

theorem map_get?_modifyMethods {α : Type} {g : Record τ → α}
    (f : Table Symbol (Method τ) → Table Symbol (Method τ))
    (hg : ∀ r, g { r with methods := f r.methods } = g r) (owner id : ClassId) :
    ((h.modifyMethods owner f).get? id).map g = (h.get? id).map g := by
  rw [modifyMethods, get?_modify]
  split
  · simp [Function.comp_def, hg]
  · rfl

theorem Sound.sound_modifyMethods (hh : h.Sound) (owner : ClassId)
    (f : Table Symbol (Method τ) → Table Symbol (Method τ)) :
    (h.modifyMethods owner f).Sound := by
  have hplace := map_get?_modifyMethods (h := h) (g := Record.place) f (fun _ => rfl) owner
  refine hh.of_place_eq hplace rfl (fun {id g} hg => ?_) (fun {id r m} hr hm => ?_)
    hh.singleton_known
  · rw [stampOf?, map_get?_modifyMethods f (fun _ => rfl)] at hg
    exact hh.stamp_le hg
  · have hmap := map_get?_modifyMethods (h := h) (g := Record.metaclass) f (fun _ => rfl) owner id
    obtain ⟨r₀, hr₀, hsame⟩ := get?_of_map_eq hmap hr
    exact hh.metaclass_known hr₀ (hsame.trans hm)

theorem Restamps.own?_eq {generation : Nat} {p : ClassId → Bool}
    (hstamps : Restamps generation p h h') (id : ClassId) (name : Symbol) :
    h'.own? id name = h.own? id name := by
  rw [own?_of_forget_eq hstamps.forget_eq]
  exact own?_of_map_eq name (map_get?_stampAll (fun _ _ => rfl) generation p id)

/-- A published change of one method table leaves of every record all but its methods, its stamp and
what it remembers. -/
theorem Sound.map_get?_publish {α : Type} {g : Record τ → α}
    (hg : ∀ r methods stamp memo, g { r with methods, stamp, memo } = g r) (hh : h.Sound)
    (owner : ClassId) (f : Table Symbol (Method τ) → Table Symbol (Method τ)) {generation : Nat}
    (hle : h.generation ≤ generation) (id : ClassId) :
    (((h.modifyMethods owner f).publishTable owner generation).get? id).map g =
      (h.get? id).map g := by
  have hstamps := (hh.sound_modifyMethods owner f).restamps_publishTable hle owner
  rw [map_get?_of_forget_eq (fun r => hg r r.methods r.stamp none) hstamps.forget_eq,
    map_get?_stampAll fun r stamp => hg r r.methods stamp r.memo]
  exact map_get?_modifyMethods f (fun r => hg r (f r.methods) r.stamp r.memo) owner id

theorem Sound.publishes_publishTable (hh : h.Sound) (owner : ClassId)
    (f : Table Symbol (Method τ) → Table Symbol (Method τ)) :
    h.Publishes owner ((h.modifyMethods owner f).publishTable owner (h.generation + 1)) := by
  have hplace := map_get?_modifyMethods (h := h) (g := Record.place) f (fun _ => rfl) owner
  have hchanged := hh.sound_modifyMethods owner f
  have hle : (h.modifyMethods owner f).generation ≤ h.generation + 1 := Nat.le_succ _
  have hlist := hh.toStratified.linearize_of_place_eq hplace
  have hstamps := hchanged.restamps_publishTable hle owner
  have hdatedPlace (id : ClassId) :
      ({ h.modifyMethods owner f with generation := h.generation + 1 }.get? id).map Record.place =
        (h.get? id).map Record.place := hplace id
  have hdated := hh.toStratified.linearize_of_place_eq hdatedPlace
  -- The tables have changed, but not the places in the graph, and the lists depend on these alone.
  refine ⟨?_, fun id => ?_, fun {id} name hne => ?_, fun {id} hid => ?_, fun {id list} hrem => ?_,
    hstamps.sound⟩
  · rw [size_of_forget_eq hstamps.forget_eq]
    simp [size, stampAll, modifyMethods, modify]
  · rw [hstamps.linearize_eq (hchanged.withGeneration hle).toStratified, hdated]
  · have hown : (h.modifyMethods owner f).own? id name = h.own? id name := by
      rw [own?, modifyMethods, get?_modify, if_neg hne.symm, ← own?]
    exact (hstamps.own?_eq id name).trans hown
  · have hold : (h.modifyMethods owner f).stampOf? id = h.stampOf? id :=
      map_get?_modifyMethods f (fun _ => rfl) owner id
    obtain ⟨r, hr⟩ := Knows.get? ((knows_iff_of_place_eq (hplace id)).mpr hid)
    rw [hstamps.stampOf?_eq, hlist]
    by_cases hmem : owner ∈ h.linearize id
    · rw [if_pos (by simpa using hmem), if_pos hmem]
      exact congrArg (Option.map fun _ => h.generation + 1) hr
    · rw [if_neg (by simpa using hmem), if_neg hmem]
      exact hold
  · refine hstamps.kept ?_
    have hepoch : (h.modifyMethods owner f).epoch = h.epoch := rfl
    exact (recalled?_of_place_eq hepoch (hplace id)).trans hrem

/-- A published change of one method table reaches no look-up from a record whose stamp stays: such
a record does not have the changed one among its ancestors. -/
theorem Sound.evolves_of_publishes (hh : h.Sound) {owner : ClassId}
    (hpub : h.Publishes owner h') : h.Evolves h' := by
  refine ⟨hpub.size_eq.ge, fun {id g g'} hg hg' => ?_, fun {id g} hg hg' => ?_, hpub.sound⟩
  · have hle := hh.stamp_le hg
    rw [hpub.stamp_eq (knows_of_stampOf? hg)] at hg'
    split at hg'
    · rw [Option.some.injEq] at hg'
      omega
    · exact hh.evolves_refl.stamp_le hg hg'
  · have hnot : owner ∉ h.linearize id := by
      intro hmem
      have hle := hh.stamp_le hg
      rw [hpub.stamp_eq (knows_of_stampOf? hg), if_pos hmem, Option.some.injEq] at hg'
      omega
    refine ⟨hpub.linearize_eq id, fun name => ?_, hpub.kept⟩
    rw [first?, first?, hpub.linearize_eq]
    exact firstOwn?_congr fun x hx => hpub.own_eq name fun heq => hnot (heq ▸ hx)

/-- The hierarchy behind a published change of what one record builds on. -/
def regraph (h : Hierarchy τ) (t : ClassId) (f : Record τ → Record τ) : Hierarchy τ :=
  (h.modify t f).publishGraph

theorem get?_regraph (h : Hierarchy τ) (t : ClassId) (f : Record τ → Record τ) (id : ClassId) :
    (h.regraph t f).get? id =
      (h.get? id).map fun r => { if t = id then f r else r with stamp := h.generation + 1 } := by
  have hgeneration : (h.modify t f).generation = h.generation := rfl
  rw [regraph, get?_publishGraph, get?_modify, hgeneration]
  split <;> simp [Function.comp_def]

theorem map_get?_regraph {α : Type} {g : Record τ → α} {f : Record τ → Record τ}
    (hf : ∀ r, g (f r) = g r) (hg : ∀ r generation, g { r with stamp := generation } = g r)
    (t id : ClassId) : ((h.regraph t f).get? id).map g = (h.get? id).map g := by
  rw [get?_regraph, Option.map_map]
  congr 1
  funext r
  simp only [Function.comp_apply, hg]
  split
  · exact hf r
  · rfl

theorem size_regraph (h : Hierarchy τ) (t : ClassId) (f : Record τ → Record τ) :
    (h.regraph t f).size = h.size := by
  simp [regraph, size, publishGraph, modify]

theorem knows_regraph {t id : ClassId} {f : Record τ → Record τ} :
    (h.regraph t f).Knows id ↔ h.Knows id := by
  rw [Knows, Knows, size_regraph]

/-- After a published change of the graph, every record has a new stamp. -/
theorem eq_of_stampOf?_regraph {t id : ClassId} {f : Record τ → Record τ} {g : Nat}
    (hg : (h.regraph t f).stampOf? id = some g) : g = h.generation + 1 := by
  rw [stampOf?, get?_regraph, Option.map_map] at hg
  obtain ⟨r, -, rfl⟩ := Option.map_eq_some_iff.mp hg
  rfl

/-- The new epoch has no remembered lists yet. -/
theorem Sound.recalled?_regraph (hh : h.Sound) {f : Record τ → Record τ}
    (hmemo : ∀ r, (f r).memo = r.memo) (t id : ClassId) : (h.regraph t f).recalled? id = none := by
  have hmap := map_get?_regraph (h := h) (g := Record.memo) hmemo (fun _ _ => rfl) t id
  have hepoch : (h.regraph t f).epoch = h.epoch + 1 := rfl
  cases hr : (h.regraph t f).get? id with
  | none => rw [recalled?, hr, Option.bind_none]
  | some r =>
    obtain ⟨r₀, hr₀, hsame⟩ := get?_of_map_eq hmap hr
    rw [recalled?, hr, Option.bind_some, Record.remembered?, ← hsame, hepoch]
    cases hm : r₀.memo with
    | none => rfl
    | some memo =>
      have hle := hh.memo_epoch_le hr₀ hm
      have hne : memo.epoch ≠ h.epoch + 1 := by omega
      exact if_neg hne

theorem edge_regraph_cases {t m a b : ClassId} {f : Record τ → Record τ}
    (hlinks : ∀ r, ∀ b ∈ (f r).links, b ∈ r.links ∨ b = m) (hab : (h.regraph t f).Edge a b) :
    h.Edge a b ∨ a = t ∧ b = m := by
  obtain ⟨r', hr', hb⟩ := edge_iff.mp hab
  rw [get?_regraph] at hr'
  obtain ⟨r, hr, rfl⟩ := Option.map_eq_some_iff.mp hr'
  by_cases hta : t = a
  · simp only [if_pos hta] at hb
    rcases hlinks r b hb with hold | hnew
    · exact .inl (edge_iff.mpr ⟨r, hr, hold⟩)
    · exact .inr ⟨hta.symm, hnew⟩
  · simp only [if_neg hta] at hb
    exact .inl (edge_iff.mpr ⟨r, hr, hb⟩)

theorem Sound.sound_regraph (hh : h.Sound) {t m : ClassId} {f : Record τ → Record τ}
    (hm : h.Knows m) (hback : ¬ h.Reaches m t)
    (hlinks : ∀ r, ∀ b ∈ (f r).links, b ∈ r.links ∨ b = m) (hmemo : ∀ r, (f r).memo = r.memo)
    (hmetaclass : ∀ r, (f r).metaclass = r.metaclass) : (h.regraph t f).Sound := by
  refine ⟨hh.addEdge (size_regraph h t f).ge (knows_regraph.mpr hm) hback
    fun a b hab => edge_regraph_cases hlinks hab, ?_, ?_, ?_, ?_, ?_⟩
  · intro id r memo hr hmemo'
    have hmap := map_get?_regraph (h := h) (g := Record.memo) hmemo (fun _ _ => rfl) t id
    obtain ⟨r₀, hr₀, hsame⟩ := get?_of_map_eq hmap hr
    have hle := hh.memo_epoch_le hr₀ (hsame.trans hmemo')
    exact hle.trans (Nat.le_succ _)
  · intro id list hlist
    rw [hh.recalled?_regraph hmemo] at hlist
    cases hlist
  · intro id g hg
    exact (eq_of_stampOf?_regraph hg).le
  · intro id r s hr hs
    have hmap := map_get?_regraph (h := h) (g := Record.metaclass) hmetaclass (fun _ _ => rfl) t id
    obtain ⟨r₀, hr₀, hsame⟩ := get?_of_map_eq hmap hr
    exact knows_regraph.mpr (hh.metaclass_known hr₀ (hsame.trans hs))
  · intro o s hs
    exact knows_regraph.mpr (hh.singleton_known hs)

/-- No stamp survives a published change of the graph, so nothing has to stay as it was. -/
theorem Sound.evolves_regraph (hh : h.Sound) {t m : ClassId} {f : Record τ → Record τ}
    (hm : h.Knows m) (hback : ¬ h.Reaches m t)
    (hlinks : ∀ r, ∀ b ∈ (f r).links, b ∈ r.links ∨ b = m) (hmemo : ∀ r, (f r).memo = r.memo)
    (hmetaclass : ∀ r, (f r).metaclass = r.metaclass) : h.Evolves (h.regraph t f) := by
  refine ⟨(size_regraph h t f).ge, ?_, ?_, hh.sound_regraph hm hback hlinks hmemo hmetaclass⟩
  · intro id g g' hg hg'
    have hle := hh.stamp_le hg
    have hnew := eq_of_stampOf?_regraph hg'
    omega
  · intro id g hg hg'
    have hle := hh.stamp_le hg
    have hnew := eq_of_stampOf?_regraph hg'
    omega

end Hierarchy

end LateBinding
