import LateBinding.Proofs.Machine.CallSites

namespace LateBinding

/-- One thing that happens to a world. -/
inductive Move where
  | edit (e : Edit Body)
  | ask (q : Query)
  /-- Decides a call. The method that it may run makes moves of its own. -/
  | decide (r : Request)
  | walk (id : ClassId) (name : Symbol)
  | newSite (mode : Mode) (limit : Nat)
  | clearCache
  | newObject (cls : ClassId)
  | newForeign (typeName : String) (object : ForeignObject)
  | safepoints (safepoints : Safepoints Script)

namespace World

/-- The world behind a move. -/
def move (w : World) : Move → World
  | .edit e => (w.edit e).2
  | .ask q => (w.answer q).2
  | .decide r => (w.decide r).2
  | .walk id name => (w.walk id name).2
  | .newSite mode limit => (w.newSite mode limit).2
  | .clearCache => { w with lookupCache := w.lookupCache.clear }
  | .newObject cls => (w.newObject cls).2
  | .newForeign typeName object => (w.newForeign typeName object).2
  | .safepoints safepoints => { w with safepoints }

/-- The world behind a history. -/
def after (w : World) (ms : List Move) : World := ms.foldl move w

/-- The record that a move makes has no superclass or one that exists. -/
def AdmitsMove (w : World) : Move → Prop
  | .edit e => w.Admits e
  | _ => True

instance decidableAdmitsMove (w : World) : (m : Move) → Decidable (w.AdmitsMove m)
  | .edit e => inferInstanceAs (Decidable (w.Admits e))
  | .ask _ | .decide _ | .walk _ _ | .newSite _ _ | .clearCache | .newObject _ | .newForeign _ _
  | .safepoints _ => inferInstanceAs (Decidable True)

/-- Along a history, every record that is made has no superclass or one that exists. -/
def Supports : World → List Move → Prop
  | _, [] => True
  | w, m :: ms => w.AdmitsMove m ∧ (w.move m).Supports ms

instance decidableSupports : (w : World) → (ms : List Move) → Decidable (w.Supports ms)
  | _, [] => inferInstanceAs (Decidable True)
  | w, m :: ms =>
    have := decidableSupports (w.move m) ms
    inferInstanceAs (Decidable (_ ∧ _))

variable {w w' : World} {m : Move} {ms ms' : List Move}

@[simp] theorem after_nil (w : World) : w.after [] = w := rfl

@[simp] theorem after_cons (w : World) (m : Move) (ms : List Move) :
    w.after (m :: ms) = (w.move m).after ms := rfl

theorem after_append (w : World) (ms ms' : List Move) :
    w.after (ms ++ ms') = (w.after ms).after ms' :=
  List.foldl_append

theorem after_concat (w : World) (ms : List Move) (m : Move) :
    w.after (ms ++ [m]) = (w.after ms).move m :=
  after_append w ms [m]

theorem supports_append :
    w.Supports (ms ++ ms') ↔ w.Supports ms ∧ (w.after ms).Supports ms' := by
  induction ms generalizing w with
  | nil => simp [Supports]
  | cons m ms ih => simp only [List.cons_append, Supports, ih, after_cons, and_assoc]

theorem supports_concat :
    w.Supports (ms ++ [m]) ↔ w.Supports ms ∧ (w.after ms).AdmitsMove m := by
  simp [supports_append, Supports]

theorem Sound.evolves_findMethod (hw : w.Sound) (receiver : Value) (name : Symbol) :
    w.hierarchy.Evolves (w.findMethod receiver name).2.hierarchy := by
  rw [(hw.findMethod_spec receiver name).2.1.hierarchy]
  exact hw.evolves_ancestors _

theorem Sound.evolves_answer (hw : w.Sound) (q : Query) :
    w.hierarchy.Evolves (w.answer q).2.hierarchy := by
  cases q with
  | findMethod receiver name => exact hw.evolves_findMethod receiver name
  | keepMethod receiver name => exact hw.evolves_findMethod receiver name
  | singletonClassOf v => exact CoreClasses.evolves_singletonClassOf hw.hierarchy hw.core v
  | _ => exact hw.hierarchy.evolves_refl

theorem Sound.evolves_move (hw : w.Sound) (hm : w.AdmitsMove m) :
    w.hierarchy.Evolves (w.move m).hierarchy := by
  cases m with
  | edit e => exact hw.evolves_edit hm
  | ask q => exact hw.evolves_answer q
  | decide r => exact hw.hierarchy.evolves_of_recalls (hw.recalls_decide r)
  | walk id name =>
    have hhierarchy : (w.move (.walk id name)).hierarchy = (w.hierarchy.ancestors id).2 :=
      (hw.walk_spec id name).2.1.hierarchy
    rw [hhierarchy]
    exact hw.evolves_ancestors id
  | _ => exact hw.hierarchy.evolves_refl

theorem Reachable.move (hw : w.Reachable) (hm : w.AdmitsMove m) : (w.move m).Reachable := by
  cases m with
  | edit e => exact hw.edit hm
  | ask q => exact hw.answer q
  | decide r => exact hw.decide r
  | walk id name => exact hw.walk id name
  | newSite mode limit => exact hw.newSite mode limit
  | clearCache => exact hw.clearCache
  | newObject cls => exact hw.newObject cls
  | newForeign typeName object => exact hw.newForeign typeName object
  | safepoints s => exact hw.safepoints s

theorem Reachable.after (hw : w.Reachable) (hms : w.Supports ms) : (w.after ms).Reachable := by
  induction ms generalizing w with
  | nil => exact hw
  | cons m ms ih => exact ih (hw.move hms.1) hms.2

/-- What holds at the beginning, and is kept by every move, holds in all states that a program can
bring about. -/
theorem Reachable.induction_move {P : World → Prop} (hw : w.Reachable)
    (hstart : ∀ options, P (World.start options))
    (hmove : ∀ {w m}, w.Reachable → w.AdmitsMove m → P w → P (w.move m)) : P w := by
  induction hw with
  | start options => exact hstart options
  | edit hw he ih => exact hmove (m := .edit _) hw he ih
  | answer hw q ih => exact hmove (m := .ask q) hw True.intro ih
  | decide hw r ih => exact hmove (m := .decide r) hw True.intro ih
  | walk hw id name ih => exact hmove (m := .walk id name) hw True.intro ih
  | newSite hw mode limit ih => exact hmove (m := .newSite mode limit) hw True.intro ih
  | clearCache hw ih => exact hmove (m := .clearCache) hw True.intro ih
  | newObject hw cls ih => exact hmove (m := .newObject cls) hw True.intro ih
  | newForeign hw typeName object ih =>
    exact hmove (m := .newForeign typeName object) hw True.intro ih
  | safepoints hw s ih => exact hmove (m := .safepoints s) hw True.intro ih

/-- A program can bring about exactly the states behind histories from the beginning. -/
theorem reachable_iff_after :
    w.Reachable ↔ ∃ options ms, (start options).Supports ms ∧ (start options).after ms = w := by
  constructor
  · intro hw
    refine hw.induction_move (P := fun w => ∃ options ms, (start options).Supports ms ∧
      (start options).after ms = w) (fun options => ⟨options, [], trivial, rfl⟩) ?_
    rintro _ m - hm ⟨options, ms, hms, rfl⟩
    exact ⟨options, ms ++ [m], supports_concat.mpr ⟨hms, hm⟩, after_concat ..⟩
  · rintro ⟨options, ms, hms, rfl⟩
    exact (Reachable.start options).after hms

end World

namespace Machine

/-- What a step does to the world. -/
def moves (m : Machine) : List Move :=
  match m.control with
  | .run (.edit e _) _ => [.edit e]
  | .run (.submit action _) _ => [.safepoints (m.world.safepoints.submit action)]
  | .run (.ask q _) _ => [.ask q]
  | .arrive r =>
    match m.world.safepoints.arrive with
    | (true, safepoints) => [.safepoints safepoints]
    | (false, safepoints) => .safepoints safepoints :: r.toList.map .decide
  | .poll r =>
    match m.world.safepoints.next m.thread with
    | .wait => []
    | .run _ safepoints => [.safepoints safepoints]
    | .pass safepoints => .safepoints safepoints :: r.toList.map .decide
  | _ => []

/-- What the first steps of a run do to the world. -/
def movesWithin : Nat → Machine → List Move
  | 0, _ => []
  | steps + 1, m =>
    match m.step with
    | .next m' => m.moves ++ movesWithin steps m'
    | _ => []

variable {m m' : Machine} {w : World}

theorem world_enter (m : Machine) (w : World) (r : Option Request) :
    (m.enter w r).world = w.after (r.toList.map .decide) := by
  cases r <;> rfl

theorem world_of_step (hstep : m.step = .next m') : m'.world = m.world.after m.moves := by
  obtain ⟨world, thread, control, stack⟩ := m
  cases control with
  | run s block =>
    obtain rfl := Progress.next.inj hstep
    cases s with
    | «yield» args k => cases block <;> rfl
    | _ => rfl
  | arrive r =>
    obtain rfl := Progress.next.inj hstep
    simp only [arrive]
    split
    · rename_i harrive
      simp only [moves, harrive]
      rfl
    · rename_i harrive
      simp only [moves, harrive]
      exact world_enter ..
  | poll r =>
    simp only [step, atSafepoint] at hstep
    split at hstep
    · rename_i hnext
      obtain rfl := Progress.next.inj hstep
      split at hnext
      · cases hnext
      · rename_i haction
        obtain rfl := Option.some.inj hnext
        simp only [moves, haction]
        rfl
      · rename_i hpass
        obtain rfl := Option.some.inj hnext
        simp only [moves, hpass]
        exact world_enter ..
    · cases hstep
  | result outcome =>
    simp only [step] at hstep
    split at hstep
    · cases hstep
    · rename_i top rest
      obtain rfl := Progress.next.inj hstep
      cases top with
      | script k block => rfl
      | safepoint r => cases outcome <;> rfl

/-- A run that comes to an end has led its world through a history. -/
theorem world_of_halted_run {steps : Nat} {outcome : Except Fault Dispatched}
    (hrun : m.run steps = .halted outcome w) : w = m.world.after (m.movesWithin steps) := by
  induction steps generalizing m with
  | zero => cases hrun
  | succ steps ih =>
    rw [run] at hrun
    rw [movesWithin]
    cases hstep : m.step with
    | next m' =>
      rw [hstep] at hrun
      simp only [World.after_append, ← world_of_step hstep]
      exact ih hrun
    | halted outcome' w' =>
      rw [hstep] at hrun
      obtain ⟨-, rfl⟩ := End.halted.inj hrun
      exact world_of_halted hstep
    | blocked =>
      rw [hstep] at hrun
      cases hrun

theorem supports_moves (hproper : m.Proper) : m.world.Supports m.moves := by
  have hdecide (w : World) (r : Option Request) : w.Supports (r.toList.map .decide) := by
    cases r <;> simp [World.Supports, World.AdmitsMove]
  obtain ⟨world, thread, control, stack⟩ := m
  cases control with
  | run s block =>
    cases s with
    | edit e k => exact ⟨hproper, trivial⟩
    | submit action k => exact ⟨trivial, trivial⟩
    | ask q k => exact ⟨trivial, trivial⟩
    | _ => exact trivial
  | arrive r =>
    simp only [moves]
    split
    · exact ⟨trivial, trivial⟩
    · exact ⟨trivial, hdecide _ r⟩
  | poll r =>
    simp only [moves]
    split
    · exact trivial
    · exact ⟨trivial, trivial⟩
    · exact ⟨trivial, hdecide _ r⟩
  | result outcome => exact trivial

theorem supports_movesWithin {steps : Nat} (hregular : m.Regular steps) :
    m.world.Supports (m.movesWithin steps) := by
  induction steps generalizing m with
  | zero => exact trivial
  | succ steps ih =>
    obtain ⟨hproper, hrest⟩ := hregular
    rw [movesWithin]
    cases hstep : m.step with
    | next m' =>
      rw [hstep] at hrest
      refine World.supports_append.mpr ⟨supports_moves hproper, ?_⟩
      rw [← world_of_step hstep]
      exact ih hrest
    | halted outcome w => exact trivial
    | blocked => exact trivial

/-- A proper step leads from a reachable state to another. -/
theorem reachable_of_step (hm : m.world.Reachable) (hproper : m.Proper) (hstep : m.step = .next m') :
    m'.world.Reachable := by
  rw [world_of_step hstep]
  exact hm.after (supports_moves hproper)

/-- A run that begins behind a history from the beginning, and comes to an end, has led its world further along
this history. So what holds behind every history also holds behind every such run. -/
theorem exists_history_of_run (hm : m.world.Reachable) {steps : Nat} (hregular : m.Regular steps)
    {outcome : Except Fault Dispatched} (hrun : m.run steps = .halted outcome w) :
    ∃ options ms more, (World.start options).Supports (ms ++ more) ∧
      (World.start options).after ms = m.world ∧ (World.start options).after (ms ++ more) = w := by
  obtain ⟨options, ms, hms, hworld⟩ := World.reachable_iff_after.mp hm
  refine ⟨options, ms, m.movesWithin steps, World.supports_append.mpr ⟨hms, ?_⟩, hworld, ?_⟩
  · rw [hworld]
    exact supports_movesWithin hregular
  · rw [World.after_append, hworld]
    exact (world_of_halted_run hrun).symm

end Machine

end LateBinding
