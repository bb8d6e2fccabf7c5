import LateBinding.Proofs.Machine.Alike

namespace LateBinding

namespace Machine

/-- The first steps of a run are proper, as far as the run goes. -/
def Regular : Nat → Machine → Prop
  | 0, _ => True
  | steps + 1, m =>
    m.Proper ∧
      match m.step with
      | .next m => Regular steps m
      | _ => True

instance decidableRegular : (steps : Nat) → (m : Machine) → Decidable (m.Regular steps)
  | 0, _ => inferInstanceAs (Decidable True)
  | steps + 1, m =>
    have _hrest : Decidable (match m.step with | .next m => Regular steps m | _ => True) :=
      match m.step with
      | .next m => decidableRegular steps m
      | .halted _ _ => inferInstanceAs (Decidable True)
      | .blocked => inferInstanceAs (Decidable True)
    inferInstanceAs (Decidable (_ ∧ _))

/-- What can be seen of a step: what it decides about a call, with the method that is begun and what
it is given, and the world behind the step. -/
structure Moment where
  decision : Option Decision
  face : World.Face

/-- The kept method that a step begins, with what it is given. -/
def invoking? (m : Machine) : Option Decision :=
  match m.control with
  | .run (.invoke kept receiver args b _) block =>
    m.world.kept[kept]?.map fun method => .invoke method receiver args (b.block? block)
  | _ => none

/-- What a step decides about a call, or the kept method that it begins. -/
def decision? (m : Machine) : Option Decision :=
  (m.deciding?.map fun p => (p.1.decide p.2).1).or m.invoking?

theorem decision?_of_deciding {m : Machine} {p : World × Request} (hdeciding : m.deciding? = some p) :
    m.decision? = some (p.1.decide p.2).1 := by
  rw [decision?, hdeciding]
  rfl

theorem decision?_eq_none {m : Machine} (hdeciding : m.deciding? = none)
    (hinvoking : m.invoking? = none) : m.decision? = none := by
  rw [decision?, hdeciding, hinvoking]
  rfl

/-- What can be seen of the first steps of a run, up to its end. -/
def moments : Nat → Machine → List Moment
  | 0, _ => []
  | steps + 1, m =>
    match m.step with
    | .next m' => ⟨m.decision?, m'.world.face⟩ :: moments steps m'
    | _ => []

/-- What a run comes to, if it comes to an end. -/
def End.outcome? : End → Option (Except Fault Dispatched)
  | halted outcome _ => some outcome
  | _ => none

theorem End.exists_halted {e : End} {outcome : Except Fault Dispatched}
    (houtcome : e.outcome? = some outcome) : ∃ w, e = .halted outcome w := by
  cases e with
  | halted o w =>
    obtain rfl := Option.some.inj houtcome
    exact ⟨w, rfl⟩
  | blocked m => cases houtcome
  | unfinished => cases houtcome

/-- The two runs come to the same. -/
inductive End.Alike (modes : Array Mode) : End → End → Prop where
  | halted (outcome : Except Fault Dispatched) {w w' : World} (hw : World.Twins modes w w') :
    Alike modes (.halted outcome w) (.halted outcome w')
  | blocked {m m' : Machine} (hm : m.Alike modes m') : Alike modes (.blocked m) (.blocked m')
  | unfinished : Alike modes .unfinished .unfinished

variable {modes : Array Mode} {R : Request → Request → Prop} {m m' : Machine}

/-- What a step does to the world: nothing, or it changes the safepoints, carries out a request,
answers a question, or decides a call. -/
theorem step_world {P : World → Prop} (hsame : P m.world)
    (hsafepoints : ∀ safepoints, P { m.world with safepoints })
    (hedit : ∀ e k block, m.control = .run (.edit e k) block → P (m.world.edit e).2)
    (hanswer : ∀ q k block, m.control = .run (.ask q k) block → P (m.world.answer q).2)
    (hdecide : ∀ safepoints r, ({ m.world with safepoints }, r) ∈ m.deciding? →
      P ({ m.world with safepoints }.decide r).2)
    (hstep : m.step = .next m') : P m'.world := by
  obtain ⟨world, thread, control, stack⟩ := m
  have henter {safepoints : Safepoints Script} {r : Option Request}
      (hr : ∀ r₀ ∈ r, ({ world with safepoints }, r₀) ∈ deciding? ⟨world, thread, control, stack⟩) :
      P (enter ⟨world, thread, control, stack⟩ { world with safepoints } r).world := by
    cases r with
    | none => exact hsafepoints safepoints
    | some r₀ => exact hdecide safepoints r₀ (hr r₀ rfl)
  cases control with
  | run s block =>
    obtain rfl := Progress.next.inj hstep
    cases s with
    | done outcome => exact hsame
    | call c k => exact hsame
    | invoke kept receiver args b k => exact hsame
    | «yield» args k => cases block <;> exact hsame
    | edit e k => exact hedit e k block rfl
    | submit action k => exact hsafepoints _
    | ask q k => exact hanswer q k block rfl
  | arrive r =>
    obtain rfl := Progress.next.inj hstep
    simp only [Machine.arrive]
    split
    · exact hsafepoints _
    · rename_i safepoints harrive
      refine henter fun r₀ hr₀ => ?_
      cases hr₀
      simp [deciding?, harrive]
  | poll r =>
    simp only [Machine.step, atSafepoint] at hstep
    split at hstep
    · rename_i hnext
      obtain rfl := Progress.next.inj hstep
      split at hnext
      · cases hnext
      · obtain rfl := Option.some.inj hnext
        exact hsafepoints _
      · rename_i safepoints hpass
        obtain rfl := Option.some.inj hnext
        refine henter fun r₀ hr₀ => ?_
        cases hr₀
        simp [deciding?, hpass]
    · cases hstep
  | result outcome =>
    simp only [Machine.step] at hstep
    split at hstep
    · cases hstep
    · rename_i top rest
      obtain rfl := Progress.next.inj hstep
      cases top with
      | script k block => exact hsame
      | safepoint r => cases outcome <;> exact hsame

theorem world_of_halted {outcome : Except Fault Dispatched} {w : World}
    (hstep : m.step = .halted outcome w) : w = m.world := by
  obtain ⟨world, thread, control, stack⟩ := m
  cases control with
  | run s block => cases hstep
  | arrive r => cases hstep
  | poll r =>
    simp only [Machine.step] at hstep
    split at hstep <;> cases hstep
  | result outcome' =>
    simp only [Machine.step] at hstep
    split at hstep
    · obtain ⟨-, rfl⟩ := Progress.halted.inj hstep
      rfl
    · cases hstep

theorem End.Alike.outcome?_eq {e e' : End} (he : e.Alike modes e') : e'.outcome? = e.outcome? := by
  cases he <;> rfl

/-- Machines that are alike decide calls that are alike, in twin worlds. -/
theorem AlikeBy.deciding?_rel (hm : m.AlikeBy modes R m') :
    Option.Rel (fun p p' => World.Twins modes p.1 p'.1 ∧ R p.2 p'.2)
      m.deciding? m'.deciding? := by
  obtain ⟨world, thread, control, stack⟩ := m
  obtain ⟨world', thread', control', stack'⟩ := m'
  have hcontrol := hm.control
  have hthread := hm.thread
  have hsafepoints := hm.world.alike.safepoints
  simp only at hcontrol hthread hsafepoints
  cases hcontrol with
  | run s block => exact .none
  | result outcome => exact .none
  | arrive hr =>
    cases hr with
    | none => exact .none
    | some hr =>
      simp only [deciding?, hsafepoints]
      split
      · exact .none
      · exact .some ⟨hm.world.safepoints _, hr⟩
  | poll hr =>
    cases hr with
    | none => exact .none
    | some hr =>
      simp only [deciding?, hsafepoints, hthread]
      split
      · exact .some ⟨hm.world.safepoints _, hr⟩
      · exact .none

/-- Machines that are alike begin the same kept method. -/
theorem AlikeBy.invoking?_eq (hm : m.AlikeBy modes R m') : m'.invoking? = m.invoking? := by
  have hkept := hm.world.alike.kept
  obtain ⟨world, thread, control, stack⟩ := m
  obtain ⟨world', thread', control', stack'⟩ := m'
  have hcontrol := hm.control
  simp only at hcontrol hkept
  cases hcontrol with
  | run s block => simp only [invoking?, hkept]
  | _ => rfl

theorem AlikeBy.decision?_eq (hm : m.AlikeBy modes R m') (hlikens : Request.Likens modes R)
    (hproper : m.ProperFor R) : m'.decision? = m.decision? := by
  have hrel := hm.deciding?_rel
  have hserves := hproper.serves
  simp only [decision?, hm.invoking?_eq]
  generalize m.deciding? = p at hrel hserves
  generalize m'.deciding? = p' at hrel
  cases hrel with
  | none => rfl
  | some hp =>
    obtain ⟨hw, hr⟩ := hp
    obtain ⟨hdecision, -⟩ := hw.decide (hlikens.alike hr) (hserves _ rfl _ hr)
    simp only [Option.map_some, hdecision]

theorem Alike.run (hm : m.Alike modes m') {steps : Nat} (hregular : m.Regular steps) :
    End.Alike modes (m.run steps) (m'.run steps) := by
  induction steps generalizing m m' with
  | zero => exact .unfinished
  | succ steps ih =>
    obtain ⟨hproper, hrest⟩ := hregular
    have hstep := hm.step (Request.likens_alike modes) (hproper.properFor _)
    simp only [Machine.run]
    generalize m.step = progress at hstep hrest
    generalize m'.step = progress' at hstep
    cases hstep with
    | next hnext => exact ih hnext hrest
    | halted outcome hw => exact .halted outcome hw
    | blocked => exact .blocked hm

theorem Alike.moments_eq (hm : m.Alike modes m') {steps : Nat} (hregular : m.Regular steps) :
    m'.moments steps = m.moments steps := by
  induction steps generalizing m m' with
  | zero => rfl
  | succ steps ih =>
    obtain ⟨hproper, hrest⟩ := hregular
    have hstep := hm.step (Request.likens_alike modes) (hproper.properFor _)
    have hdecision := hm.decision?_eq (Request.likens_alike modes) (hproper.properFor _)
    simp only [moments, hdecision]
    generalize m.step = progress at hstep hrest
    generalize m'.step = progress' at hstep
    cases hstep with
    | next hnext => simp only [hnext.world.alike.face_eq, ih hnext hrest]
    | halted outcome hw => rfl
    | blocked => rfl

end Machine

end LateBinding
