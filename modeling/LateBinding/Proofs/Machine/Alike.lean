import LateBinding.Machine
import LateBinding.Proofs.World.Sites

namespace LateBinding

/-- Two sound worlds that are alike, with call sites of given modes. -/
structure World.Twins (modes : Array Mode) (w w' : World) : Prop where
  alike : w.Alike w'
  sound : w.Sound
  sound' : w'.Sound
  modes_eq : w.modes = modes

/-- The two calls differ at most in their routes, and these have the same mode. -/
structure Request.Alike (modes : Array Mode) (r r' : Request) : Prop where
  mode : r'.route.mode? modes = r.route.mode? modes
  receiver : r'.receiver = r.receiver
  name : r'.name = r.name
  args : r'.args = r.args
  block : r'.block = r.block

namespace World

variable {modes : Array Mode} {w w' : World}

/-- The class of a value exists. -/
def HasClass (w : World) (v : Value) : Prop := w.hierarchy.Knows (w.core.classOf w.hierarchy v)

instance (w : World) (v : Value) : Decidable (w.HasClass v) :=
  inferInstanceAs (Decidable (w.hierarchy.Knows _))

theorem Sound.effectiveClass_known (hw : w.Sound) {v : Value} (hv : w.HasClass v) :
    w.hierarchy.Knows (w.effectiveClass v) :=
  CoreClasses.effectiveClass_known hw.hierarchy hv

theorem verdict_of_alike {r r' : Request} (hr : r.Alike modes r') (w : World) (mode : Mode) :
    w.verdict r' mode = w.verdict r mode := by
  obtain ⟨route, receiver, name, args, block⟩ := r
  obtain ⟨route', receiver', name', args', block'⟩ := r'
  obtain ⟨-, hreceiver, hname, hargs, hblock⟩ := hr
  simp only at hreceiver hname hargs hblock
  subst hreceiver hname hargs hblock
  cases receiver' <;> rfl

theorem Twins.safepoints (hw : Twins modes w w') (safepoints : Safepoints Script) :
    Twins modes { w with safepoints } { w' with safepoints } where
  alike := { hw.alike with safepoints := rfl }
  sound := hw.sound.of_eq rfl rfl rfl rfl
  sound' := hw.sound'.of_eq rfl rfl rfl rfl
  modes_eq := hw.modes_eq

theorem modes_settle (w : World) (v : Value) : (w.settle v).modes = w.modes := by
  rw [settle]
  split <;> rfl

/-- Twin worlds decide a call in the same way, whatever their call sites remember, if the class of the
receiver exists or the call goes through no call site. -/
theorem Twins.decide (hw : Twins modes w w') {r r' : Request} (hr : r.Alike modes r')
    (hclass : r.route.isSite = true ∨ r'.route.isSite = true → w.HasClass r.receiver) :
    (w'.decide r').1 = (w.decide r).1 ∧ Twins modes (w.decide r).2 (w'.decide r').2 := by
  have hmodes' : w'.modes = modes := hw.alike.modes.trans hw.modes_eq
  have hknown (hsite : r.route.isSite = true ∨ r'.route.isSite = true) :=
    hw.sound.effectiveClass_known (hclass hsite)
  cases hmode : r.route.mode? modes with
  | none =>
    have hmode' : r'.route.mode? w'.modes = none := by rw [hmodes', hr.mode, hmode]
    rw [decide_of_mode?_eq_none hmode']
    rw [← hw.modes_eq] at hmode
    rw [decide_of_mode?_eq_none hmode]
    exact ⟨rfl, hw⟩
  | some mode =>
    have hmode' : r'.route.mode? w'.modes = some mode := by rw [hmodes', hr.mode, hmode]
    have hknown' (hsite : r'.route.isSite = true) :
        w'.hierarchy.Knows (w'.effectiveClass r'.receiver) := by
      rw [hr.receiver, hw.alike.effectiveClass_eq, hw.alike.hierarchy]
      exact hknown (.inr hsite)
    rw [← hw.modes_eq] at hmode
    have hleft := hw.sound.decide_settles hmode fun hsite => hknown (.inl hsite)
    have hright := hw.sound'.decide_settles hmode' hknown'
    rw [verdict_of_alike hr, hw.alike.verdict_eq, hr.receiver] at hright
    refine ⟨hright.decision.trans hleft.decision.symm, ⟨?_, hleft.sound, hright.sound, ?_⟩⟩
    · exact hleft.alike.symm.trans ((hw.alike.settle r.receiver).trans hright.alike)
    · have hsites : (w.decide r).2.modes = (w.settle r.receiver).modes := hleft.alike.modes
      rw [hsites, modes_settle, hw.modes_eq]

theorem Twins.edit (hw : Twins modes w w') {e : Edit Body} (he : w.Admits e) :
    (w'.edit e).1 = (w.edit e).1 ∧ Twins modes (w.edit e).2 (w'.edit e).2 := by
  obtain ⟨houtcome, halike⟩ := hw.alike.edit e
  have he' := (hw.alike.admits_iff e).mpr he
  exact ⟨houtcome, halike, hw.sound.edit he, hw.sound'.edit he', hw.modes_eq⟩

theorem modes_walk (w : World) (id : ClassId) (name : Symbol) :
    (w.walk id name).2.modes = w.modes := by
  rw [walk]
  split <;> rfl

theorem modes_answer (w : World) (q : Query) : (w.answer q).2.modes = w.modes := by
  cases q with
  | findMethod receiver name => exact w.modes_walk (w.effectiveClass receiver) name
  | keepMethod receiver name => exact w.modes_walk (w.effectiveClass receiver) name
  | _ => rfl

theorem Twins.answer (hw : Twins modes w w') (q : Query) :
    (w'.answer q).1 = (w.answer q).1 ∧ Twins modes (w.answer q).2 (w'.answer q).2 := by
  obtain ⟨hanswer, halike⟩ := hw.sound.answer_alike hw.sound' hw.alike q
  refine ⟨hanswer, halike, hw.sound.answer q, hw.sound'.answer q, ?_⟩
  rw [modes_answer, hw.modes_eq]

end World

/-- Related calls differ at most in their routes, and every call is related to itself. -/
structure Request.Likens (modes : Array Mode) (R : Request → Request → Prop) : Prop where
  alike : ∀ {r r'}, R r r' → r.Alike modes r'
  refl : ∀ r, R r r

theorem Request.likens_alike (modes : Array Mode) : Likens modes (Request.Alike modes) :=
  ⟨id, fun _ => ⟨rfl, rfl, rfl, rfl, rfl⟩⟩

theorem Request.likens_eq (modes : Array Mode) : Likens modes (· = ·) :=
  ⟨fun hr => hr ▸ (likens_alike modes).refl _, fun _ => rfl⟩

/-- The two wait for the same, up to calls that are related. -/
inductive Waiting.Alike (R : Request → Request → Prop) : Waiting → Waiting → Prop where
  | script (k : Except Fault Dispatched → Script) (block : Option Block) :
    Alike R (.script k block) (.script k block)
  | safepoint {r r' : Option Request} (hr : Option.Rel R r r') : Alike R (.safepoint r) (.safepoint r')

/-- The two are about to do the same, up to calls that are related. -/
inductive Control.Alike (R : Request → Request → Prop) : Control → Control → Prop where
  | run (s : Script) (block : Option Block) : Alike R (.run s block) (.run s block)
  | arrive {r r' : Option Request} (hr : Option.Rel R r r') : Alike R (.arrive r) (.arrive r')
  | poll {r r' : Option Request} (hr : Option.Rel R r r') : Alike R (.poll r) (.poll r')
  | result (outcome : Except Fault Dispatched) : Alike R (.result outcome) (.result outcome)

namespace Machine

/-- The two machines do the same in twin worlds, up to calls that are related. -/
structure AlikeBy (modes : Array Mode) (R : Request → Request → Prop) (m m' : Machine) : Prop where
  world : World.Twins modes m.world m'.world
  thread : m'.thread = m.thread
  control : m.control.Alike R m'.control
  stack : List.Forall₂ (Waiting.Alike R) m.stack m'.stack

/-- The two machines do the same in twin worlds, by calls whose routes have the same mode. -/
abbrev Alike (modes : Array Mode) : Machine → Machine → Prop := AlikeBy modes (Request.Alike modes)

/-- The two steps come to the same. -/
inductive Progress.AlikeBy (modes : Array Mode) (R : Request → Request → Prop) :
    Progress → Progress → Prop where
  | next {m m' : Machine} (hm : m.AlikeBy modes R m') : AlikeBy modes R (.next m) (.next m')
  | halted (outcome : Except Fault Dispatched) {w w' : World} (hw : World.Twins modes w w') :
    AlikeBy modes R (.halted outcome w) (.halted outcome w')
  | blocked : AlikeBy modes R .blocked .blocked

/-- The call that a step decides, and the world in which it does. -/
def deciding? (m : Machine) : Option (World × Request) :=
  match m.control with
  | .arrive (some r) =>
    match m.world.safepoints.arrive with
    | (true, _) => none
    | (false, safepoints) => some ({ m.world with safepoints }, r)
  | .poll (some r) =>
    match m.world.safepoints.next m.thread with
    | .pass safepoints => some ({ m.world with safepoints }, r)
    | _ => none
  | _ => none

/-- A step that makes a record does so below one that exists, and a step that decides a call does so
for a receiver whose class exists. -/
def Proper (m : Machine) : Prop :=
  match m.control with
  | .run (.edit e _) _ => m.world.Admits e
  | _ => ∀ p ∈ m.deciding?, p.1.HasClass p.2.receiver

instance (m : Machine) : Decidable m.Proper := by
  unfold Proper
  split <;> infer_instance

/-- As a proper step, but a call that looks for its method afresh may have any receiver. -/
def ProperAtSites (m : Machine) : Prop :=
  match m.control with
  | .run (.edit e _) _ => m.world.Admits e
  | _ => ∀ p ∈ m.deciding?, p.2.route.isSite = true → p.1.HasClass p.2.receiver

/-- A call for which a related one may be made has a receiver whose class exists, if one of the two goes
through a call site. -/
def Serves (R : Request → Request → Prop) (w : World) (r : Request) : Prop :=
  ∀ r', R r r' → r.route.isSite = true ∨ r'.route.isSite = true → w.HasClass r.receiver

/-- The step is taken alike by machines that are alike up to calls that are related. -/
structure ProperFor (R : Request → Request → Prop) (m : Machine) : Prop where
  admits : ∀ e k block, m.control = .run (.edit e k) block → m.world.Admits e
  serves : ∀ p ∈ m.deciding?, Serves R p.1 p.2

variable {modes : Array Mode} {R : Request → Request → Prop} {m m' : Machine} {w w' : World}
  {r r' : Option Request}

theorem Proper.hasClass (hproper : m.Proper) {p : World × Request} (hp : p ∈ m.deciding?) :
    p.1.HasClass p.2.receiver := by
  obtain ⟨world, thread, control, stack⟩ := m
  cases control with
  | run s block => cases hp
  | arrive r => exact hproper p hp
  | poll r => exact hproper p hp
  | result outcome => cases hp

theorem Proper.properFor (hproper : m.Proper) (R : Request → Request → Prop) : m.ProperFor R where
  admits e k block hcontrol := by rwa [Proper, hcontrol] at hproper
  serves _ hp _ _ _ := hproper.hasClass hp

theorem Proper.atSites (hproper : m.Proper) : m.ProperAtSites := by
  obtain ⟨world, thread, control, stack⟩ := m
  cases control with
  | run s block =>
    cases s with
    | edit e k => exact hproper
    | _ => exact fun p hp => by cases hp
  | _ => exact fun p hp _ => hproper.hasClass hp

theorem ProperAtSites.properFor (hproper : m.ProperAtSites) : m.ProperFor (· = ·) where
  admits e k block hcontrol := by rwa [ProperAtSites, hcontrol] at hproper
  serves p hp r' hr hsite := by
    subst hr
    obtain ⟨world, thread, control, stack⟩ := m
    cases control with
    | run s block => cases hp
    | arrive r => exact hproper p hp (or_self_iff.mp hsite)
    | poll r => exact hproper p hp (or_self_iff.mp hsite)
    | result outcome => cases hp

theorem Control.alike_ofDecision (R : Request → Request → Prop) (d : Decision) :
    (Control.ofDecision d).Alike R (.ofDecision d) := by
  cases d with
  | answer d => exact .result _
  | fail f => exact .result _
  | invoke m receiver args block =>
    simp only [Control.ofDecision]
    split
    · exact .run _ _
    · exact .result _

theorem Control.alike_ofKept (R : Request → Request → Prop) (kept : Option (Method Target))
    (receiver : Value) (args : List Value) (block : Option Block) :
    (Control.ofKept kept receiver args block).Alike R (.ofKept kept receiver args block) := by
  cases kept with
  | none => exact .result _
  | some m => exact Control.alike_ofDecision R (.invoke m receiver args block)

section

variable (hlikens : Request.Likens modes R)

include hlikens

theorem AlikeBy.enter (hm : m.AlikeBy modes R m') (hw : World.Twins modes w w') (hr : Option.Rel R r r')
    (hserves : ∀ r₀ ∈ r, Serves R w r₀) :
    (m.enter w r).AlikeBy modes R (m'.enter w' r') := by
  cases hr with
  | none => exact ⟨hw, hm.thread, .result _, hm.stack⟩
  | some hr =>
    rename_i r₀ r₀'
    obtain ⟨hdecision, hafter⟩ := hw.decide (hlikens.alike hr) (hserves r₀ rfl r₀' hr)
    refine ⟨hafter, hm.thread, ?_, hm.stack⟩
    have hcontrol := Control.alike_ofDecision R (w.decide r₀).1
    simp only [Machine.enter]
    rwa [hdecision]

theorem AlikeBy.runScript (hm : m.AlikeBy modes R m') (s : Script) (block : Option Block)
    (hedit : ∀ e k, s = .edit e k → m.world.Admits e) :
    (m.runScript block s).AlikeBy modes R (m'.runScript block s) := by
  cases s with
  | done outcome => exact ⟨hm.world, hm.thread, .result _, hm.stack⟩
  | call c b k =>
    refine ⟨hm.world, hm.thread, .arrive (.some (hlikens.refl _)), ?_⟩
    exact .cons (.script k block) hm.stack
  | invoke kept receiver args b k =>
    refine ⟨hm.world, hm.thread, ?_, .cons (.script k block) hm.stack⟩
    simp only [Machine.runScript, hm.world.alike.kept]
    exact Control.alike_ofKept R _ receiver args _
  | «yield» args k =>
    cases block with
    | none => exact ⟨hm.world, hm.thread, .run _ _, hm.stack⟩
    | some b => exact ⟨hm.world, hm.thread, .run _ _, .cons (.script k _) hm.stack⟩
  | edit e k =>
    obtain ⟨houtcome, hafter⟩ := hm.world.edit (hedit e k rfl)
    refine ⟨hafter, hm.thread, ?_, hm.stack⟩
    simp only [Machine.runScript, houtcome]
    exact .run _ _
  | submit action k =>
    have hsafepoints := hm.world.safepoints (m.world.safepoints.submit action)
    refine ⟨?_, hm.thread, .run _ _, hm.stack⟩
    simpa only [Machine.runScript, hm.world.alike.safepoints] using hsafepoints
  | ask q k =>
    obtain ⟨hanswer, hafter⟩ := hm.world.answer q
    refine ⟨hafter, hm.thread, ?_, hm.stack⟩
    simp only [Machine.runScript, hanswer]
    exact .run _ _

theorem AlikeBy.arrive (hm : m.AlikeBy modes R m') (hr : Option.Rel R r r')
    (hserves : ∀ safepoints, m.world.safepoints.arrive = (false, safepoints) → ∀ r₀ ∈ r,
      Serves R { m.world with safepoints } r₀) :
    (m.arrive r).AlikeBy modes R (m'.arrive r') := by
  simp only [Machine.arrive, hm.world.alike.safepoints]
  split
  · rename_i safepoints harrive
    exact ⟨hm.world.safepoints safepoints, hm.thread, .poll hr, hm.stack⟩
  · rename_i safepoints harrive
    exact hm.enter hlikens (hm.world.safepoints safepoints) hr (hserves safepoints harrive)

/-- At a safepoint, two machines that are alike wait both, or go on alike. -/
theorem AlikeBy.atSafepoint (hm : m.AlikeBy modes R m') (hr : Option.Rel R r r')
    (hserves : ∀ safepoints, m.world.safepoints.next m.thread = .pass safepoints → ∀ r₀ ∈ r,
      Serves R { m.world with safepoints } r₀) :
    Option.Rel (AlikeBy modes R) (m.atSafepoint r) (m'.atSafepoint r') := by
  simp only [Machine.atSafepoint, hm.world.alike.safepoints, hm.thread]
  split
  · exact .none
  · rename_i action safepoints hnext
    exact .some ⟨hm.world.safepoints safepoints, rfl, .run action none,
      .cons (.safepoint hr) hm.stack⟩
  · rename_i safepoints hnext
    exact .some (hm.enter hlikens (hm.world.safepoints safepoints) hr (hserves safepoints hnext))

omit hlikens in
theorem AlikeBy.resume (hm : m.AlikeBy modes R m') (outcome : Except Fault Dispatched)
    {stack stack' : List Waiting} (hstack : List.Forall₂ (Waiting.Alike R) stack stack')
    {top top' : Waiting} (htop : top.Alike R top') :
    (m.resume outcome stack top).AlikeBy modes R (m'.resume outcome stack' top') := by
  cases htop with
  | script k block => exact ⟨hm.world, hm.thread, .run _ _, hstack⟩
  | safepoint hr =>
    cases outcome with
    | ok d => exact ⟨hm.world, hm.thread, .poll hr, hstack⟩
    | error f => exact ⟨hm.world, hm.thread, .result _, hstack⟩

omit hlikens in
private theorem progress_alike_of_rel {next next' : Option Machine} :
    Option.Rel (AlikeBy modes R) next next' →
      Progress.AlikeBy modes R (match next with | some m => .next m | none => .blocked)
        (match next' with | some m => .next m | none => .blocked) := by
  intro hnext
  cases hnext with
  | none => exact .blocked
  | some hnext => exact .next hnext

/-- Machines that are alike take the same step, if it is proper for them. -/
theorem AlikeBy.step (hm : m.AlikeBy modes R m') (hproper : m.ProperFor R) :
    Progress.AlikeBy modes R m.step m'.step := by
  obtain ⟨world, thread, control, stack⟩ := m
  obtain ⟨world', thread', control', stack'⟩ := m'
  have hcontrol := hm.control
  have hstack := hm.stack
  simp only at hcontrol hstack
  cases hcontrol with
  | run s block =>
    exact .next (hm.runScript hlikens s block fun e k hs => hproper.admits e k block (by rw [hs]))
  | arrive hr =>
    refine .next (hm.arrive hlikens hr fun safepoints harrive r₀ hr₀ => ?_)
    cases hr₀
    simp only at harrive
    exact hproper.serves ({ world with safepoints }, r₀) (by simp [deciding?, harrive])
  | poll hr =>
    have hnext := hm.atSafepoint hlikens hr fun safepoints hpass r₀ hr₀ => by
      cases hr₀
      simp only at hpass
      exact hproper.serves ({ world with safepoints }, r₀) (by simp [deciding?, hpass])
    exact progress_alike_of_rel hnext
  | result outcome =>
    simp only [Machine.step]
    cases hstack with
    | nil => exact .halted outcome hm.world
    | cons htop hrest => exact .next (hm.resume outcome hrest htop)

end

end Machine

end LateBinding
