import LateBinding.Proofs.Hierarchy.Evolution

namespace LateBinding

open Relation

variable {τ : Type}

namespace Hierarchy

variable {h h' : Hierarchy τ}

theorem not_knows_size (h : Hierarchy τ) : ¬ h.Knows ⟨h.size⟩ := Nat.lt_irrefl _

theorem size_create (h : Hierarchy τ) (name : String) (superclass : Option ClassId)
    (flags : ClassFlags) : (h.create name superclass flags).2.size = h.size + 1 := by
  simp [size, create]

theorem knows_create (h : Hierarchy τ) (name : String) (superclass : Option ClassId)
    (flags : ClassFlags) :
    (h.create name superclass flags).2.Knows (h.create name superclass flags).1 := by
  have hsize := h.size_create name superclass flags
  have hindex : (h.create name superclass flags).1.index = h.size := rfl
  rw [Knows, hsize, hindex]
  omega

theorem get?_create_of_knows (name : String) (superclass : Option ClassId) (flags : ClassFlags)
    {id : ClassId} (hid : h.Knows id) :
    (h.create name superclass flags).2.get? id = h.get? id := by
  have hne : id ≠ ⟨h.size⟩ := by
    rintro rfl
    exact h.not_knows_size hid
  rw [get?_create, if_neg hne]

theorem get?_create_cases {name : String} {superclass : Option ClassId} {flags : ClassFlags}
    {id : ClassId} {r : Record τ} (hr : (h.create name superclass flags).2.get? id = some r) :
    h.get? id = some r ∨ id = ⟨h.size⟩ ∧ r = .new name flags superclass h.generation := by
  rw [get?_create] at hr
  split at hr
  · rename_i hid
    exact .inr ⟨hid, (Option.some.inj hr).symm⟩
  · exact .inl hr

/-- The one edge that comes with a new record leads from it to its superclass. -/
theorem edge_create_iff {name : String} {superclass : Option ClassId} {flags : ClassFlags}
    {a b : ClassId} :
    (h.create name superclass flags).2.Edge a b ↔
      h.Edge a b ∨ a = ⟨h.size⟩ ∧ superclass = some b := by
  rw [edge_iff]
  constructor
  · rintro ⟨r, hr, hb⟩
    rcases get?_create_cases hr with hold | ⟨rfl, rfl⟩
    · exact .inl (edge_iff.mpr ⟨r, hold, hb⟩)
    · exact .inr ⟨rfl, by simpa [Record.links, Record.new] using hb⟩
  · rintro (hold | ⟨rfl, rfl⟩)
    · obtain ⟨r, hr, hb⟩ := edge_iff.mp hold
      exact ⟨r, (get?_create_of_knows name superclass flags (.of_get? hr)).trans hr, hb⟩
    · exact ⟨_, (h.get?_create name (some b) flags ⟨h.size⟩).trans (if_pos rfl),
        by simp [Record.links, Record.new]⟩

theorem Stratified.create (hh : h.Stratified) (name : String) {superclass : Option ClassId}
    (flags : ClassFlags) (hknown : ∀ id ∈ superclass, h.Knows id) :
    (h.create name superclass flags).2.Stratified := by
  have hsize : h.size ≤ (h.create name superclass flags).2.size := by
    rw [size_create]
    exact Nat.le_succ _
  cases superclass with
  | none =>
    refine hh.mono hsize fun a b hab => ?_
    rcases edge_create_iff.mp hab with hold | ⟨-, hnone⟩
    · exact hold
    · cases hnone
  | some s =>
    have hs : h.Knows s := hknown s rfl
    have hback : ¬ h.Reaches s ⟨h.size⟩ := by
      intro hreach
      exact h.not_knows_size (hh.knows_of_reaches hs hreach)
    refine hh.addEdge hsize (Nat.lt_of_lt_of_le hs hsize) hback fun a b hab => ?_
    rcases edge_create_iff.mp hab with hold | ⟨ha, hb⟩
    · exact .inl hold
    · exact .inr ⟨ha, (Option.some.inj hb).symm⟩

/-- A look-up from a record that is there already never comes to a new one. -/
theorem Sound.sameFrom_create (hh : h.Sound) (name : String) {superclass : Option ClassId}
    (flags : ClassFlags) (hknown : ∀ id ∈ superclass, h.Knows id) {id : ClassId}
    (hid : h.Knows id) : h.SameFrom (h.create name superclass flags).2 id := by
  have hget {a : ClassId} (ha : h.Knows a) := get?_create_of_knows name superclass flags ha
  have hlist : (h.create name superclass flags).2.linearize id = h.linearize id := by
    refine hh.toStratified.linearize_congr (hh.toStratified.create name flags hknown)
      (P := h.Knows) (fun a ha => ?_) (fun a b _ hab => hh.closed hab) hid
    rw [shape?, hget ha, ← shape?]
  refine ⟨hlist, fun name => ?_, fun {list} hrem => ?_⟩
  · rw [first?, first?, hlist]
    refine firstOwn?_congr fun x hx => ?_
    obtain ⟨-, hreach⟩ := hh.mem_linearize_iff.mp hx
    rw [own?, hget (hh.knows_of_reaches hid hreach), ← own?]
  · have hepoch : (h.create name superclass flags).2.epoch = h.epoch := rfl
    rwa [recalled?, hget hid, hepoch, ← recalled?]

theorem Sound.sound_create (hh : h.Sound) (name : String) {superclass : Option ClassId}
    (flags : ClassFlags) (hknown : ∀ id ∈ superclass, h.Knows id) :
    (h.create name superclass flags).2.Sound := by
  have hsame {id : ClassId} (hid : h.Knows id) := hh.sameFrom_create name flags hknown hid
  have hup {id : ClassId} (hid : h.Knows id) :
      (h.create name superclass flags).2.Knows id := by
    have hsize := h.size_create name superclass flags
    simp only [Knows] at hid ⊢
    omega
  refine ⟨hh.toStratified.create name flags hknown, fun {id r m} hr hm => ?_,
    fun {id list} hlist => ?_, fun {id g} hg => ?_, fun {id r m} hr hm => ?_,
    fun {o s} hs => hup (hh.singleton_known hs)⟩
  · rcases get?_create_cases hr with hold | ⟨-, rfl⟩
    · exact hh.memo_epoch_le hold hm
    · cases hm
  · obtain ⟨r, hr, hrem⟩ := Option.bind_eq_some_iff.mp hlist
    rcases get?_create_cases hr with hold | ⟨-, rfl⟩
    · have hrecalled : h.recalled? id = some list := Option.bind_eq_some_iff.mpr ⟨r, hold, hrem⟩
      rw [(hsame (.of_get? hold)).linearize_eq, hh.recalled_eq hrecalled]
    · cases hrem
  · obtain ⟨r, hr, rfl⟩ := Option.map_eq_some_iff.mp hg
    rcases get?_create_cases hr with hold | ⟨-, rfl⟩
    · exact hh.stamp_le (by rw [stampOf?, hold, Option.map_some])
    · exact Nat.le_refl _
  · rcases get?_create_cases hr with hold | ⟨-, rfl⟩
    · exact hup (hh.metaclass_known hold hm)
    · cases hm

theorem Sound.evolves_create (hh : h.Sound) (name : String) {superclass : Option ClassId}
    (flags : ClassFlags) (hknown : ∀ id ∈ superclass, h.Knows id) :
    h.Evolves (h.create name superclass flags).2 := by
  refine hh.evolves_of_sameFrom (hh.sound_create name flags hknown) ?_ (fun id hid => ?_)
    fun id hid => hh.sameFrom_create name flags hknown hid
  · rw [size_create]
    exact Nat.le_succ _
  · rw [stampOf?, get?_create_of_knows name superclass flags hid, ← stampOf?]

/-- A change that concerns no look-up: what a record is noted for besides. -/
theorem Sound.evolves_of_place_eq (hh : h.Sound)
    (hplace : ∀ id, (h'.get? id).map Record.place = (h.get? id).map Record.place)
    (hmethods : ∀ id, (h'.get? id).map Record.methods = (h.get? id).map Record.methods)
    (hstamp : ∀ id, h'.stampOf? id = h.stampOf? id) (hepoch : h'.epoch = h.epoch)
    (hgeneration : h'.generation = h.generation)
    (hmetaclass : ∀ {id r m}, h'.get? id = some r → r.metaclass = some m → h.Knows m)
    (hsingleton : ∀ {o s}, h'.singletonOf? o = some s → h.Knows s) : h.Evolves h' := by
  have hlist := hh.toStratified.linearize_of_place_eq hplace
  have hsound : h'.Sound := by
    refine hh.of_place_eq hplace hepoch (fun {id g} hg => ?_) hmetaclass hsingleton
    rw [hstamp] at hg
    rw [hgeneration]
    exact hh.stamp_le hg
  refine hh.evolves_of_sameFrom hsound ?_ (fun id _ => hstamp id) fun id _ => ?_
  · by_contra hlt
    have hknown : h.Knows ⟨h'.size⟩ := Nat.lt_of_not_le hlt
    exact h'.not_knows_size ((knows_iff_of_place_eq (hplace _)).mpr hknown)
  · refine ⟨hlist id, fun name => ?_, fun {list} hrem => ?_⟩
    · rw [first?, first?, hlist]
      exact firstOwn?_congr fun x _ => own?_of_map_eq name (hmethods x)
    · rw [recalled?_of_place_eq hepoch (hplace id), hrem]

theorem Sound.evolves_attachToObject (hh : h.Sound) (o : ObjectRef) (name : String)
    (hknown : h.singletonOf? o = none → h.Knows o.declaredClass) :
    h.Evolves (h.attachToObject o name).2 := by
  rw [attachToObject]
  split
  · exact hh.evolves_refl
  · rename_i hnone
    have hsuper : ∀ s ∈ some o.declaredClass, h.Knows s := by simpa using hknown hnone
    have hcreate := hh.evolves_create name { isSingleton := true } hsuper
    refine hcreate.trans (hcreate.sound.evolves_of_place_eq (fun _ => rfl) (fun _ => rfl)
      (fun _ => rfl) rfl rfl hcreate.sound.metaclass_known fun {o' s} hs => ?_)
    simp only [singletonOf?, Table.get?_insert] at hs
    split at hs
    · obtain rfl := Option.some.inj hs
      exact h.knows_create ..
    · exact hcreate.sound.singleton_known hs

theorem Sound.evolves_setMetaclass (hh : h.Sound) (id : ClassId) {m : ClassId}
    (hm : h.Knows m) : h.Evolves (h.modify id fun r => { r with metaclass := some m }) := by
  have hmap {α : Type} (f : Record τ → α) (hf : ∀ r, f { r with metaclass := some m } = f r)
      (x : ClassId) :
      ((h.modify id fun r => { r with metaclass := some m }).get? x).map f =
        (h.get? x).map f := by
    rw [get?_modify]
    split
    · simp [Function.comp_def, hf]
    · rfl
  refine hh.evolves_of_place_eq (hmap _ fun _ => rfl) (hmap _ fun _ => rfl) (hmap _ fun _ => rfl)
    rfl rfl (fun {x r m'} hr hm' => ?_) hh.singleton_known
  rw [get?_modify] at hr
  split at hr
  · obtain ⟨r, -, rfl⟩ := Option.map_eq_some_iff.mp hr
    obtain rfl := Option.some.inj hm'
    exact hm
  · exact hh.metaclass_known hr hm'

theorem Sound.evolves_attachToModule (hh : h.Sound) (module : ClassId) {superclass : ClassId}
    (hknown : (h.get? module).any (fun r => r.metaclass.isNone) = true → h.Knows superclass) :
    h.Evolves (h.attachToModule module superclass).2 := by
  rw [attachToModule]
  split
  · exact hh.evolves_refl
  · rename_i r hr
    split
    · exact hh.evolves_refl
    · rename_i hnone
      have hsuper : ∀ s ∈ some superclass, h.Knows s := by
        simpa using hknown (by simp [hr, hnone])
      have hcreate := hh.evolves_create s!"#<Class:{r.name}>" { isSingleton := true } hsuper
      exact hcreate.trans (hcreate.sound.evolves_setMetaclass module (h.knows_create ..))

end Hierarchy

end LateBinding
