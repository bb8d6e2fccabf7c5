import LateBinding.Proofs.Hierarchy.Memo

namespace LateBinding

variable {τ : Type}

/-- The place of a record in the graph, and the list that it remembers. -/
def Record.place (r : Record τ) : Option ClassId × List ClassId × Option AncestorMemo :=
  (r.superclass, r.includes, r.memo)

namespace Hierarchy

variable {h h' h'' : Hierarchy τ}

theorem shape?_of_place_eq {id : ClassId}
    (hplace : (h'.get? id).map Record.place = (h.get? id).map Record.place) :
    h'.shape? id = h.shape? id := by
  have hshape := congrArg (Option.map fun p => (p.1, p.2.1)) hplace
  simpa [shape?, Record.place, Function.comp_def] using hshape

theorem recalled?_of_place_eq {id : ClassId} (hepoch : h'.epoch = h.epoch)
    (hplace : (h'.get? id).map Record.place = (h.get? id).map Record.place) :
    h'.recalled? id = h.recalled? id := by
  have hmemo : (h'.get? id).map Record.memo = (h.get? id).map Record.memo := by
    have hmap := congrArg (Option.map fun p => p.2.2) hplace
    simpa [Record.place, Function.comp_def] using hmap
  simp only [recalled?, hepoch]
  cases hr : h.get? id <;> cases hr' : h'.get? id <;>
    simp_all [Record.remembered?]

theorem knows_iff_of_place_eq {id : ClassId}
    (hplace : (h'.get? id).map Record.place = (h.get? id).map Record.place) :
    h'.Knows id ↔ h.Knows id := by
  rw [← get?_eq_some_iff_knows, ← get?_eq_some_iff_knows]
  have hsome := congrArg Option.isSome hplace
  simpa using hsome

theorem Stratified.of_place_eq (hh : h.Stratified)
    (hplace : ∀ id, (h'.get? id).map Record.place = (h.get? id).map Record.place) :
    h'.Stratified := by
  have hedge (a b : ClassId) : h'.Edge a b ↔ h.Edge a b :=
    edge_congr (shape?_of_place_eq (hplace a))
  refine .of_rank (fun a b hab => ?_) h.height fun a b hab => hh.height_lt ((hedge a b).mp hab)
  exact (knows_iff_of_place_eq (hplace b)).mpr (hh.closed ((hedge a b).mp hab))

theorem Stratified.linearize_of_place_eq (hh : h.Stratified)
    (hplace : ∀ id, (h'.get? id).map Record.place = (h.get? id).map Record.place) (id : ClassId) :
    h'.linearize id = h.linearize id :=
  hh.linearize_congr (hh.of_place_eq hplace) (P := fun _ => True)
    (fun a _ => shape?_of_place_eq (hplace a)) (fun _ _ _ _ => trivial) trivial

/-- A change that leaves the graph and the remembered lists alone keeps a hierarchy sound if stamps
and references stay in range. -/
theorem Sound.of_place_eq (hh : h.Sound)
    (hplace : ∀ id, (h'.get? id).map Record.place = (h.get? id).map Record.place)
    (hepoch : h'.epoch = h.epoch)
    (hstamp : ∀ {id g}, h'.stampOf? id = some g → g ≤ h'.generation)
    (hmetaclass : ∀ {id r m}, h'.get? id = some r → r.metaclass = some m → h.Knows m)
    (hsingleton : ∀ {o s}, h'.singletonOf? o = some s → h.Knows s) : h'.Sound where
  toStratified := hh.toStratified.of_place_eq hplace
  memo_epoch_le {id r m} hr hm := by
    obtain ⟨r₀, hr₀, hsame⟩ := get?_of_map_eq (hplace id) hr
    have hm₀ : r₀.memo = some m := by
      simp only [Record.place, Prod.mk.injEq] at hsame
      rw [hsame.2.2, hm]
    rw [hepoch]
    exact hh.memo_epoch_le hr₀ hm₀
  recalled_eq {id list} hlist := by
    rw [recalled?_of_place_eq hepoch (hplace id)] at hlist
    rw [hh.toStratified.linearize_of_place_eq hplace, hh.recalled_eq hlist]
  stamp_le := hstamp
  metaclass_known hr hm := (knows_iff_of_place_eq (hplace _)).mpr (hmetaclass hr hm)
  singleton_known hs := (knows_iff_of_place_eq (hplace _)).mpr (hsingleton hs)

/-- The hierarchy with the same stamp on some of its records. -/
def stampAll (h : Hierarchy τ) (generation : Nat) (p : ClassId → Bool) : Hierarchy τ :=
  { h with
    records := h.records.mapIdx fun i r => if p ⟨i⟩ then { r with stamp := generation } else r }

/-- One hierarchy comes from another by stamping some records, and by remembering more. -/
structure Restamps (generation : Nat) (p : ClassId → Bool) (h h' : Hierarchy τ) : Prop where
  forget_eq : h'.forget = (h.stampAll generation p).forget
  kept : ∀ {id list}, h.recalled? id = some list → h'.recalled? id = some list
  sound : h'.Sound

theorem get?_stampAll (h : Hierarchy τ) (generation : Nat) (p : ClassId → Bool) (id : ClassId) :
    (h.stampAll generation p).get? id =
      (h.get? id).map fun r => if p id then { r with stamp := generation } else r := by
  obtain ⟨i⟩ := id
  simp [stampAll, get?]

theorem map_get?_stampAll {α : Type} {g : Record τ → α}
    (hg : ∀ r stamp, g { r with stamp } = g r) (generation : Nat) (p : ClassId → Bool)
    (id : ClassId) : ((h.stampAll generation p).get? id).map g = (h.get? id).map g := by
  rw [get?_stampAll, Option.map_map]
  congr 1
  funext r
  simp only [Function.comp_apply]
  split
  · exact hg r generation
  · rfl

theorem place_stampAll (h : Hierarchy τ) (generation : Nat) (p : ClassId → Bool) (id : ClassId) :
    ((h.stampAll generation p).get? id).map Record.place = (h.get? id).map Record.place :=
  map_get?_stampAll (fun _ _ => rfl) generation p id

theorem stampOf?_stampAll (h : Hierarchy τ) (generation : Nat) (p : ClassId → Bool)
    (id : ClassId) :
    (h.stampAll generation p).stampOf? id =
      if p id then (h.get? id).map fun _ => generation else h.stampOf? id := by
  simp only [stampOf?, get?_stampAll, Option.map_map, Function.comp_def]
  split <;> rfl

theorem stampAll_false (h : Hierarchy τ) (generation : Nat) :
    h.stampAll generation (fun _ => false) = h := by
  refine ext_get? (fun id => ?_) rfl rfl rfl
  simp [get?_stampAll]

/-- Stamping twice with the same stamp stamps what either of the two stamps. -/
theorem forget_stampAll_stampAll {generation : Nat} {p q : ClassId → Bool}
    (hforget : h'.forget = (h.stampAll generation p).forget) :
    (h'.stampAll generation q).forget =
      (h.stampAll generation fun id => p id || q id).forget := by
  have hget (id : ClassId) := map_get?_of_forget_eq (f := Record.forget) (fun _ => rfl) hforget id
  refine ext_get? (fun id => ?_) (congrArg (fun h => h.generation) hforget)
    (congrArg (fun h => h.epoch) hforget) (congrArg (fun h => h.objectSingletons) hforget)
  have hid := hget id
  simp only [get?_forget, get?_stampAll, Option.map_map] at hid ⊢
  cases hr : h.get? id with
  | none =>
    have hr' : h'.get? id = none := by simpa [hr] using hid
    simp [hr']
  | some r =>
    obtain ⟨r', hr', hsame⟩ : ∃ r', h'.get? id = some r' ∧
        r'.forget = (if p id then { r with stamp := generation } else r).forget := by
      simpa [hr] using hid
    simp only [hr', Option.map_some, Function.comp_apply, Option.some.injEq]
    cases hp : p id <;> cases hq : q id <;> simp_all [Record.forget]

theorem Restamps.trans {generation : Nat} {p q : ClassId → Bool}
    (hfirst : Restamps generation p h h') (hthen : Restamps generation q h' h'') :
    Restamps generation (fun id => p id || q id) h h'' where
  forget_eq := hthen.forget_eq.trans (forget_stampAll_stampAll hfirst.forget_eq)
  kept hlist := hthen.kept (hfirst.kept hlist)
  sound := hthen.sound

theorem Restamps.congr {generation : Nat} {p q : ClassId → Bool}
    (hstamps : Restamps generation p h h') (hpq : ∀ id, p id = q id) :
    Restamps generation q h h' := by
  rwa [show q = p from funext fun id => (hpq id).symm]

theorem Recalls.restamps {generation : Nat} (hrec : h.Recalls h') :
    Restamps generation (fun _ => false) h h' :=
  ⟨by rw [stampAll_false, hrec.forget_eq], hrec.kept, hrec.sound⟩

theorem Restamps.linearize_eq {generation : Nat} {p : ClassId → Bool}
    (hstamps : Restamps generation p h h') (hh : h.Stratified) (id : ClassId) :
    h'.linearize id = h.linearize id := by
  have hplace := place_stampAll h generation p
  rw [(hh.of_place_eq hplace).linearize_of_forget_eq hstamps.forget_eq,
    hh.linearize_of_place_eq hplace]

theorem Restamps.stampOf?_eq {generation : Nat} {p : ClassId → Bool}
    (hstamps : Restamps generation p h h') (id : ClassId) :
    h'.stampOf? id = if p id then (h.get? id).map fun _ => generation else h.stampOf? id := by
  rw [stampOf?_of_forget_eq hstamps.forget_eq, stampOf?_stampAll]

/-- Stamping a record with a generation that was given out keeps a hierarchy sound. -/
theorem Sound.restamps_stamp (hh : h.Sound) {generation : Nat} (hle : generation ≤ h.generation)
    (x : ClassId) : Restamps generation (fun id => id == x) h (h.stamp generation x) := by
  have heq : h.stamp generation x = h.stampAll generation fun id => id == x := by
    refine ext_get? (fun id => ?_) rfl rfl rfl
    rw [stamp, get?_modify, get?_stampAll]
    by_cases hid : x = id
    · simp [hid]
    · simp [hid, Ne.symm hid]
  rw [heq]
  have hplace := place_stampAll h generation fun id => id == x
  have hepoch : (h.stampAll generation fun id => id == x).epoch = h.epoch := rfl
  refine ⟨rfl, fun {id list} hlist => ?_, hh.of_place_eq hplace hepoch ?_ ?_ hh.singleton_known⟩
  · exact (recalled?_of_place_eq hepoch (hplace id)).trans hlist
  · intro id g hg
    rw [stampOf?_stampAll] at hg
    split at hg
    · obtain ⟨r, -, rfl⟩ := Option.map_eq_some_iff.mp hg
      exact hle
    · exact hh.stamp_le hg
  · intro id r m hr hm
    rw [get?_stampAll] at hr
    obtain ⟨r₀, hr₀, rfl⟩ := Option.map_eq_some_iff.mp hr
    refine hh.metaclass_known hr₀ ?_
    split at hm <;> exact hm

/-- One record is stamped if the changed one is among its ancestors. -/
private theorem Sound.restamps_stampIfBelow (hh : h.Sound) (owner : ClassId) {x : ClassId}
    (hx : h.Knows x) :
    Restamps h.generation (fun id => id == x && decide (owner ∈ h.linearize id)) h
      (stampIfBelow owner h.generation h x) := by
  by_cases howner : x = owner
  · subst howner
    have hself := hh.self_mem_linearize hx
    rw [stampIfBelow, if_pos rfl]
    refine (hh.restamps_stamp (Nat.le_refl _) x).congr fun id => ?_
    by_cases hid : id = x
    · simp [hid, hself]
    · simp [hid]
  · have hrec := hh.recalls_ancestors x
    have hlist := hh.ancestors_fst x
    have hgeneration := generation_of_forget_eq hrec.forget_eq
    have hstamp := hrec.sound.restamps_stamp (Nat.le_refl _) x
    rw [hgeneration] at hstamp
    rw [stampIfBelow, if_neg howner]
    simp only [isAncestor, hlist]
    split
    · rename_i hbelow
      refine (hrec.restamps.trans hstamp).congr fun id => ?_
      by_cases hid : id = x
      · simpa [hid] using hbelow
      · simp [hid]
    · rename_i hbelow
      refine hrec.restamps.congr fun id => ?_
      by_cases hid : id = x
      · simpa [hid] using hbelow
      · simp [hid]

private theorem Sound.restamps_foldl (hh : h.Sound) (owner : ClassId) {ids : List ClassId}
    (hids : ∀ x ∈ ids, h.Knows x) :
    Restamps h.generation (fun id => decide (id ∈ ids) && decide (owner ∈ h.linearize id)) h
      (ids.foldl (stampIfBelow owner h.generation) h) := by
  induction ids generalizing h with
  | nil => exact hh.recalls_refl.restamps.congr fun id => by simp
  | cons x ids ih =>
    have hfirst := hh.restamps_stampIfBelow owner (hids x (by simp))
    have hlist := hfirst.linearize_eq hh.toStratified
    have hgeneration : (stampIfBelow owner h.generation h x).generation = h.generation :=
      congrArg (fun h => h.generation) hfirst.forget_eq
    have hknows {y : ClassId} (hy : h.Knows y) :
        (stampIfBelow owner h.generation h x).Knows y := by
      rw [knows_iff_of_forget_eq hfirst.forget_eq]
      exact (knows_iff_of_place_eq (place_stampAll ..)).mpr hy
    have hrest := ih hfirst.sound fun y hy => hknows (hids y (by simp [hy]))
    rw [hgeneration] at hrest
    refine (hfirst.trans hrest).congr fun id => ?_
    by_cases hid : id = x <;> simp [hid, hlist]

theorem Sound.withGeneration (hh : h.Sound) {generation : Nat} (hle : h.generation ≤ generation) :
    { h with generation }.Sound :=
  hh.of_place_eq (fun _ => rfl) rfl (fun hg => (hh.stamp_le hg).trans hle) hh.metaclass_known
    hh.singleton_known

/-- A published change of a method table stamps the records that have the changed one among their
ancestors. -/
theorem Sound.restamps_publishTable (hh : h.Sound) {generation : Nat} (hle : h.generation ≤ generation)
    (owner : ClassId) :
    Restamps generation (fun id => decide (owner ∈ h.linearize id)) { h with generation }
      (h.publishTable owner generation) := by
  have hsound := hh.withGeneration hle
  have hplace (id : ClassId) :
      ({ h with generation }.get? id).map Record.place = (h.get? id).map Record.place := rfl
  have hlist := hh.toStratified.linearize_of_place_eq hplace
  have hknown (x : ClassId) (hx : x ∈ h.ids) : { h with generation }.Knows x := mem_ids.mp hx
  have hstamps := hsound.restamps_foldl owner hknown
  refine hstamps.congr fun id => ?_
  rw [hlist]
  by_cases hid : h.Knows id
  · simp [hid]
  · simp [hid, linearize_unknown (get?_eq_none_iff.mpr hid)]

end Hierarchy

end LateBinding
