import LateBinding.Proofs.Hierarchy.Entries
import LateBinding.Proofs.Hierarchy.Kin

namespace LateBinding

variable {τ : Type}

/-- The method is no tombstone and has a target. -/
def Method.CanRun (m : Method τ) : Prop := m.isUndefined = false ∧ ∃ t, m.target = some t

theorem Method.WellMarked.canRun {m : Method τ} (hm : m.WellMarked)
    (hdefined : m.isUndefined = false) : m.CanRun := by
  refine ⟨hdefined, Option.ne_none_iff_exists'.mp fun hnone => ?_⟩
  rw [hm.mpr hnone] at hdefined
  cases hdefined

/-- A look-up finds a method, or keeps it from the caller, only if the walk came to it. -/
theorem Walk.eq_defined_of_filter {walk : Walk τ} {visible : Visibility → Bool} {m : Method τ}
    (hm : walk.filter visible = .found m ∨ walk.filter visible = .hidden m) : walk = .defined m := by
  cases walk with
  | defined m' =>
    simp only [filter] at hm
    split at hm <;> simpa using hm
  | undefined | absent => simp [filter] at hm

namespace Hierarchy

/-- The entry says where it stands, it is a tombstone exactly if it has no target, and it is no
newer than the stamp of its owner, which is no newer than the last change. -/
structure Filed (h : Hierarchy τ) (id : ClassId) (name : Symbol) (m : Method τ) : Prop where
  owner_eq : m.owner = id
  name_eq : m.name = name
  wellMarked : m.WellMarked
  dated : ∃ stamp, h.stampOf? id = some stamp ∧ m.generation ≤ stamp ∧ stamp ≤ h.generation

def AllFiled (h : Hierarchy τ) : Prop :=
  ∀ ⦃id name m⦄, h.own? id name = some m → h.Filed id name m

variable {h h' : Hierarchy τ} {id : ClassId} {name : Symbol} {m : Method τ}

theorem AllFiled.wellMarked (hfiled : h.AllFiled) (hm : h.view id name = .defined m) :
    m.WellMarked := by
  obtain ⟨x, hx⟩ := exists_own?_of_first? (view_eq_defined_iff.mp hm).1
  exact (hfiled hx).wellMarked

theorem AllFiled.name_eq (hfiled : h.AllFiled) (hm : h.view id name = .defined m) :
    m.name = name := by
  obtain ⟨x, hx⟩ := exists_own?_of_first? (view_eq_defined_iff.mp hm).1
  exact (hfiled hx).name_eq

theorem AllFiled.canRun (hfiled : h.AllFiled) (hm : h.view id name = .defined m) : m.CanRun :=
  (hfiled.wellMarked hm).canRun (view_eq_defined_iff.mp hm).2

theorem allFiled_empty : (empty : Hierarchy τ).AllFiled := by
  intro id name m hm
  cases hm

/-- A stamp never goes down. -/
theorem Filed.of_evolves (hm : h.Filed id name m) (hev : h.Evolves h') : h'.Filed id name m := by
  obtain ⟨stamp, hstamp, hle, -⟩ := hm.dated
  obtain ⟨stamp', hstamp'⟩ := stampOf?_of_knows (hev.knows (knows_of_stampOf? hstamp))
  have hgrown := hev.stamp_le hstamp hstamp'
  exact ⟨hm.owner_eq, hm.name_eq, hm.wellMarked, stamp', hstamp', hle.trans hgrown,
    hev.sound.stamp_le hstamp'⟩

theorem AllFiled.of_own?_eq (hfiled : h.AllFiled) (hev : h.Evolves h') (hown : h'.own? = h.own?) :
    h'.AllFiled := by
  intro id name m hm
  rw [hown] at hm
  exact (hfiled hm).of_evolves hev

theorem AllFiled.of_recalls (hfiled : h.AllFiled) (hh : h.Sound) (hrec : h.Recalls h') :
    h'.AllFiled :=
  hfiled.of_own?_eq (hh.evolves_of_recalls hrec) hrec.own?_eq

/-- A copy has a target exactly if the method has one that it is made from. -/
theorem AllFiled.wellMarked_of_puts (hfiled : h.AllFiled) {e : Edit τ} (hputs : e.Puts h m) :
    m.WellMarked := by
  cases hputs with
  | define howner name visibility target flags => exact Method.wellMarked_new ..
  | undefine hm => exact Method.wellMarked_tombstone ..
  | addAlias hm new => exact (hfiled.wellMarked hm).aliased ..
  | setVisibility hm visibility => exact (hfiled.wellMarked hm).withVisibility ..

theorem AllFiled.apply (hfiled : h.AllFiled) (hh : h.Sound) {e : Edit τ}
    (he : e.NamesKnownSuperclass h) : (e.apply h).2.AllFiled := by
  intro id name m hm
  have hev := hh.evolves_apply he
  rcases hh.own?_apply_cases hm with hold | ⟨hputs, howner, hname, hstamp⟩
  · exact (hfiled hold).of_evolves hev
  · exact ⟨howner.symm, hname.symm, hfiled.wellMarked_of_puts hputs, m.generation, hstamp, le_rfl,
      hev.sound.stamp_le hstamp⟩

theorem own?_singletonClassOf {core : CoreClasses} (hh : h.Sound) (hcore : core.KnownIn h)
    (v : Value) : (core.singletonClassOf h v).2.own? = h.own? := by
  refine CoreClasses.singletonClassOf_induction (P := fun h' => h'.own? = h.own?)
    (fun {h' id above} _ _ _ hsame => ?_) hh hcore (fun o name _ _ => ?_) rfl
  · exact (h'.own?_attachToModule id above).trans hsame
  · exact h.own?_attachToObject o name

theorem AllFiled.operation (hfiled : h.AllFiled) (hh : h.Sound) {op : Operation τ}
    (hop : op.NamesKnownClasses h) : (op.apply h).2.AllFiled := by
  cases op with
  | edit e => exact hfiled.apply hh hop
  | singletonClassOf core v =>
    exact hfiled.of_own?_eq (hh.evolves_operation hop) (own?_singletonClassOf hh hop v)
  | walk id name =>
    simp only [Operation.apply, hh.walk_eq]
    exact hfiled.of_recalls hh (hh.recalls_ancestors id)
  | walkCached cache id name => exact hfiled.of_recalls hh (hh.recalls_walkCached cache id name)
  | effectiveClass | describe | look => exact hfiled

theorem AllFiled.after (hfiled : h.AllFiled) (hh : h.Sound) {ops : List (Operation τ)}
    (hops : h.Supports ops) : (h.after ops).AllFiled := by
  induction ops generalizing h with
  | nil => exact hfiled
  | cons op ops ih =>
    obtain ⟨hop, hrest⟩ := hops
    exact ih (hfiled.operation hh hop) (hh.evolves_operation hop).sound hrest

/-- Every entry of every state that operations lead to from nothing is where it says. -/
theorem allFiled_after {ops : List (Operation τ)} (hops : (empty : Hierarchy τ).Supports ops) :
    (empty.after ops : Hierarchy τ).AllFiled :=
  allFiled_empty.after sound_empty hops

end Hierarchy

end LateBinding
