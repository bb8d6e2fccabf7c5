import LateBinding.Proofs.Machine.CallSites
import LateBinding.Proofs.World.Hooked

namespace LateBinding

/-- Who is behind a computation. -/
inductive Party where
  /-- The runtime: a decision, or a kernel method. -/
  | runtime
  /-- A method of the program, or an action that it has submitted. -/
  | program
  /-- A block that was passed to a call. -/
  | block
deriving DecidableEq

/-- Who is behind what a decision leads to. -/
def Decision.party : Decision → Party
  | .invoke m _ _ _ => if m.target.any fun t => t.IsKernel then .runtime else .program
  | _ => .runtime

namespace World

/-- The states of a runtime that a program can bring about if it makes classes below classes, makes
objects of classes, and leaves the hook for missing methods in place. -/
inductive Lawful : World → Prop where
  | start (options : Options) : Lawful (start options)
  | edit {w : World} (hw : Lawful w) {e : Edit Body} (he : w.Permits e) : Lawful (w.edit e).2
  | answer {w : World} (hw : Lawful w) {q : Query} (hq : w.PermitsQuery q) :
    Lawful (w.answer q).2
  | decide {w : World} (hw : Lawful w) {r : Request} (hr : w.HasProperClass r.receiver) :
    Lawful (w.decide r).2
  | walk {w : World} (hw : Lawful w) (id : ClassId) (name : Symbol) : Lawful (w.walk id name).2
  | newSite {w : World} (hw : Lawful w) (mode : Mode) (limit : Nat) :
    Lawful (w.newSite mode limit).2
  | clearCache {w : World} (hw : Lawful w) : Lawful { w with lookupCache := w.lookupCache.clear }
  | newObject {w : World} (hw : Lawful w) (cls : ClassId) : Lawful (w.newObject cls).2
  | newForeign {w : World} (hw : Lawful w) (typeName : String) (object : ForeignObject) :
    Lawful (w.newForeign typeName object).2
  | safepoints {w : World} (hw : Lawful w) (safepoints : Safepoints Script) :
    Lawful { w with safepoints }

variable {w : World}

theorem Hooked.newSite (hw : w.Hooked) (mode : Mode) (limit : Nat) :
    w.Follows (w.newSite mode limit).2 :=
  hw.follows_of_eq (hw.sound.newSite mode limit) rfl rfl (Nat.le_refl _)

theorem Hooked.clearCache (hw : w.Hooked) :
    w.Follows { w with lookupCache := w.lookupCache.clear } :=
  hw.follows_of_eq hw.sound.clearCache rfl rfl (Nat.le_refl _)

theorem Hooked.newObject (hw : w.Hooked) (cls : ClassId) : w.Follows (w.newObject cls).2 :=
  hw.follows_of_eq (hw.sound.of_eq rfl rfl rfl rfl) rfl rfl (Nat.le_succ _)

theorem Hooked.newForeign (hw : w.Hooked) (typeName : String) (object : ForeignObject) :
    w.Follows (w.newForeign typeName object).2 :=
  hw.follows_of_eq (hw.sound.of_eq rfl rfl rfl rfl) rfl rfl (Nat.le_succ _)

theorem Hooked.safepoints (hw : w.Hooked) (safepoints : Safepoints Script) :
    w.Follows { w with safepoints } :=
  hw.follows_of_eq (hw.sound.of_eq rfl rfl rfl rfl) rfl rfl (Nat.le_refl _)

/-- Whatever a program does, the hook stays in place. -/
theorem Lawful.hooked (hw : w.Lawful) : w.Hooked := by
  induction hw with
  | start options => exact hooked_start options
  | edit _ he ih => exact (ih.edit he).hooked
  | answer _ hq ih => exact (ih.answer hq).hooked
  | decide _ hr ih => exact (ih.safe_decide hr).2.hooked
  | walk _ id name ih => exact (ih.walk id name).hooked
  | newSite _ mode limit ih => exact (ih.newSite mode limit).hooked
  | clearCache _ ih => exact ih.clearCache.hooked
  | newObject _ cls ih => exact (ih.newObject cls).hooked
  | newForeign _ typeName object ih => exact (ih.newForeign typeName object).hooked
  | safepoints _ s ih => exact (ih.safepoints s).hooked

end World

namespace Machine

/-- Who is behind the computation and behind each one that waits for it, once a call was decided. -/
def partiesOnward (m : Machine) (parties : List Party) : List Party :=
  match m.deciding? with
  | some p => (p.1.decide p.2).1.party :: parties.tail
  | none => parties

/-- Who is behind the computation and behind each one that waits for it, after a step. -/
def partiesAfter (m : Machine) (parties : List Party) : List Party :=
  match m.control with
  | .run (.call _ _ _) _ => .runtime :: parties
  | .run (.invoke _ _ _ _ _) _ => m.invoking?.elim .runtime Decision.party :: parties
  | .run (.yield _ _) (some _) => .block :: parties
  | .run _ _ => parties
  | .arrive _ => m.partiesOnward parties
  | .poll _ =>
    match m.world.safepoints.next m.thread with
    | .run _ _ => .program :: parties
    | _ => m.partiesOnward parties
  | .result _ => parties.tail

/-- The step keeps to the rules: requests and questions are permitted, the receiver of a call has a
class that is in order, and no method of the program returns a fatal fault. -/
def Obeys (m : Machine) (parties : List Party) : Prop :=
  match m.control with
  | .run (.edit e _) _ => m.world.Permits e
  | .run (.ask q _) _ => m.world.PermitsQuery q
  | .run (.done outcome) _ => parties.head? = some .program → NotFatal outcome
  | _ => ∀ p ∈ m.deciding?, p.1.HasProperClass p.2.receiver

theorem Obeys.hasProperClass {m : Machine} {parties : List Party} (hobeys : m.Obeys parties)
    {p : World × Request} (hp : p ∈ m.deciding?) : p.1.HasProperClass p.2.receiver := by
  obtain ⟨world, thread, control, stack⟩ := m
  cases control with
  | run s block => cases hp
  | arrive r => exact hobeys p hp
  | poll r => exact hobeys p hp
  | result outcome => cases hp

/-- The first steps of a run keep to the rules, as far as the run goes. -/
def Orderly : Nat → List Party → Machine → Prop
  | 0, _, _ => True
  | steps + 1, parties, m =>
    m.Obeys parties ∧
      match m.step with
      | .next m' => Orderly steps (m.partiesAfter parties) m'
      | _ => True

instance (m : Machine) (parties : List Party) : Decidable (m.Obeys parties) := by
  obtain ⟨world, thread, control, stack⟩ := m
  cases control with
  | run s block => cases s <;> unfold Obeys <;> infer_instance
  | _ => unfold Obeys; infer_instance

instance decidableOrderly :
    (steps : Nat) → (parties : List Party) → (m : Machine) → Decidable (m.Orderly steps parties)
  | 0, _, _ => inferInstanceAs (Decidable True)
  | steps + 1, parties, m =>
    have _hrest : Decidable (match m.step with
        | .next m' => Orderly steps (m.partiesAfter parties) m' | _ => True) :=
      match m.step with
      | .next m' => decidableOrderly steps (m.partiesAfter parties) m'
      | .halted _ _ => inferInstanceAs (Decidable True)
      | .blocked => inferInstanceAs (Decidable True)
    inferInstanceAs (Decidable (_ ∧ _))

/-- What waits on the stack, and whether it relies on an outcome that is not fatal. A kernel method
that serves a receiver which exists passes such an outcome on; a method of the program may be handed
any outcome. -/
inductive Expects (w : World) : Bool → List Waiting → List Party → Prop where
  | nil : Expects w true [] []
  | free {strict : Bool} {party : Party} (hfree : party = .program ∨ strict = false)
    (k : Except Fault Dispatched → Script) (block : Option Block) {stack : List Waiting}
    {parties : List Party} (hrest : Expects w strict stack parties) :
    Expects w false (.script k block :: stack) (party :: parties)
  | harmless {strict : Bool} (party : Party) {receiver : Value} (hreceiver : w.Knows receiver)
    {k : Except Fault Dispatched → Script}
    (hk : ∀ outcome, NotFatal outcome → (k outcome).Harmless receiver) (block : Option Block)
    {stack : List Waiting} {parties : List Party} (hrest : Expects w strict stack parties) :
    Expects w true (.script k block :: stack) (party :: parties)
  | safepoint {strict : Bool} (party : Party) {r : Option Request}
    (hr : strict = true → ∀ r₀ ∈ r, w.Knows r₀.receiver) {stack : List Waiting}
    {parties : List Party} (hrest : Expects w strict stack parties) :
    Expects w true (.safepoint r :: stack) (party :: parties)

/-- What the machine is about to do leads to an outcome that is not fatal if that is relied on. -/
inductive Fits (w : World) : Bool → Party → Control → Prop where
  | free {strict : Bool} {party : Party} (hfree : party = .program ∨ strict = false) (s : Script)
    (block : Option Block) : Fits w strict party (.run s block)
  | harmless (strict : Bool) (party : Party) {receiver : Value} (hreceiver : w.Knows receiver)
    {s : Script} (hs : s.Harmless receiver) (block : Option Block) :
    Fits w strict party (.run s block)
  | arrive {strict : Bool} (party : Party) {r : Option Request}
    (hr : strict = true → ∀ r₀ ∈ r, w.Knows r₀.receiver) : Fits w strict party (.arrive r)
  | poll {strict : Bool} (party : Party) {r : Option Request}
    (hr : strict = true → ∀ r₀ ∈ r, w.Knows r₀.receiver) : Fits w strict party (.poll r)
  | result {strict : Bool} (party : Party) {outcome : Except Fault Dispatched}
    (houtcome : strict = true → NotFatal outcome) : Fits w strict party (.result outcome)

/-- What the machine is about to do meets what waits for it. -/
inductive Obliged (w : World) : List Party → Control → List Waiting → Prop where
  | intro {strict : Bool} {party : Party} {rest : List Party} {control : Control}
    {stack : List Waiting} (hfits : Fits w strict party control)
    (hstack : Expects w strict stack rest) : Obliged w (party :: rest) control stack

/-- Every computation meets what is expected of it, in a state that a program can bring about. -/
structure Conforms (parties : List Party) (m : Machine) : Prop where
  lawful : m.world.Lawful
  obliged : Obliged m.world parties m.control m.stack

variable {m m' : Machine} {w w' : World} {parties rest : List Party} {strict : Bool} {party : Party}

theorem Expects.of_keepsFlags (hkeeps : w.hierarchy.KeepsFlags w'.hierarchy)
    {stack : List Waiting} (hstack : Expects w strict stack parties) :
    Expects w' strict stack parties := by
  induction hstack with
  | nil => exact .nil
  | free hfree k block _ ih => exact .free hfree k block ih
  | harmless party hreceiver hk block _ ih =>
    exact .harmless party (hreceiver.of_keepsFlags hkeeps) hk block ih
  | safepoint party hr _ ih =>
    exact .safepoint party (fun hstrict r₀ hr₀ => (hr hstrict r₀ hr₀).of_keepsFlags hkeeps) ih

/-- Whatever the machine is about to do, it will do where nobody relies on the outcome. -/
theorem fits_loose (party : Party) (control : Control) : Fits w false party control := by
  cases control with
  | run s block => exact .free (.inr rfl) s block
  | arrive r => exact .arrive party fun hstrict => absurd hstrict Bool.false_ne_true
  | poll r => exact .poll party fun hstrict => absurd hstrict Bool.false_ne_true
  | result outcome => exact .result party fun hstrict => absurd hstrict Bool.false_ne_true

/-- A safe decision about a call leads to what the call is expected to lead to. -/
theorem fits_ofDecision {receiver : Value} {d : Decision} (hd : World.Safe receiver d)
    (hreceiver : strict = true → w.Knows receiver) :
    Fits w strict d.party (Control.ofDecision d) := by
  cases hd with
  | answer d => exact .result _ fun _ => trivial
  | fail hf => exact .result _ fun _ => hf
  | @invoke m t ht hkernel args block =>
    simp only [Control.ofDecision, Decision.party, ht, Option.any_some, decide_eq_true_eq]
    by_cases hserial : t.IsKernel
    · rw [if_pos hserial]
      -- The receiver need not exist, but then nobody relies on what the kernel method returns.
      cases strict with
      | true => exact .harmless _ _ (hreceiver rfl) (hkernel hserial ⟨m.info, receiver, args, block.isSome⟩) _
      | false => exact .free (.inr rfl) _ _
    · rw [if_neg hserial]
      exact .free (.inl rfl) _ _

/-- Behind a safepoint, a call is decided, and the decision meets what waits for the call. -/
theorem obliged_enter (hw : w.Hooked) {r : Option Request}
    (hdeciding : m.deciding? = r.map fun r => (w, r))
    (hobeys : ∀ p ∈ m.deciding?, p.1.HasProperClass p.2.receiver)
    (hr : strict = true → ∀ r₀ ∈ r, w.Knows r₀.receiver)
    (hstack : Expects w strict m.stack rest) :
    Obliged (m.enter w r).world (m.partiesOnward (party :: rest)) (m.enter w r).control
      (m.enter w r).stack := by
  cases r with
  | none =>
    have hnone : m.partiesOnward (party :: rest) = party :: rest := by
      rw [partiesOnward, hdeciding]
      rfl
    rw [hnone]
    exact .intro (.result party fun _ => trivial) hstack
  | some r =>
    have hsome : m.partiesOnward (party :: rest) = (w.decide r).1.party :: rest := by
      rw [partiesOnward, hdeciding]
      rfl
    obtain ⟨hsafe, hfollows⟩ := hw.safe_decide (hobeys (w, r) (by rw [hdeciding]; rfl))
    rw [hsome]
    refine .intro (fits_ofDecision hsafe fun hstrict => ?_) (hstack.of_keepsFlags hfollows.keeps)
    exact (hr hstrict r rfl).of_keepsFlags hfollows.keeps

/-- A script goes on in keeping with what waits for it. -/
theorem obliged_runScript {thread : ThreadId} {s : Script} {block : Option Block}
    {stack : List Waiting} (hw : w.Hooked) (hfits : Fits w strict party (.run s block))
    (hstack : Expects w strict stack rest)
    (hobeys : Obeys ⟨w, thread, .run s block, stack⟩ (party :: rest))
    (hkeeps : w.hierarchy.KeepsFlags
      (runScript ⟨w, thread, .run s block, stack⟩ block s).world.hierarchy) :
    Obliged (runScript ⟨w, thread, .run s block, stack⟩ block s).world
      (partiesAfter ⟨w, thread, .run s block, stack⟩ (party :: rest))
      (runScript ⟨w, thread, .run s block, stack⟩ block s).control
      (runScript ⟨w, thread, .run s block, stack⟩ block s).stack := by
  have hlater := hstack.of_keepsFlags hkeeps
  cases hfits with
  | free hfree =>
    -- Whatever the script does but return, it goes on to be as free as it was.
    cases s with
    | done outcome =>
      refine .intro (.result party fun hstrict => ?_) hstack
      rcases hfree with rfl | hloose
      · exact NotFatal.map (hobeys rfl) _
      · rw [hstrict] at hloose
        cases hloose
    | call c b k => exact .intro (fits_loose .runtime _) (.free hfree k block hstack)
    | invoke kept receiver args b k =>
      exact .intro (fits_loose _ _) (.free hfree k block hstack)
    | «yield» args k =>
      cases block with
      | none => exact .intro (.free hfree _ _) hstack
      | some b => exact .intro (.free (.inr rfl) _ _) (.free hfree k _ hstack)
    | edit e k => exact .intro (.free hfree _ _) hlater
    | submit action k => exact .intro (.free hfree _ _) hlater
    | ask q k => exact .intro (.free hfree _ _) hlater
  | harmless hreceiver hs =>
    -- A call for the receiver is itself expected not to end in a fatal fault, so that the script is
    -- handed no such fault when it goes on.
    cases hs with
    | done houtcome => exact .intro (.result party fun _ => houtcome.map _) hstack
    | call hc hk =>
      refine .intro (.arrive .runtime fun _ r hr => ?_) (.harmless party hreceiver hk block hstack)
      obtain rfl := Option.some.inj hr
      rw [hc]
      exact hreceiver
    | singletonClass hk =>
      have hmade := hk _ (hw.notFatal_singletonClassOf hreceiver)
      exact .intro (.harmless strict party (hreceiver.of_keepsFlags hkeeps) hmade block) hlater
    | ask hq hk =>
      exact .intro (.harmless strict party (hreceiver.of_keepsFlags hkeeps) (hk _) block) hlater

/-- A call that comes to a safepoint stops there, or passes it and is decided. -/
theorem obliged_arrive {thread : ThreadId} {r : Option Request} {stack : List Waiting}
    (hw : w.Hooked) (hfits : Fits w strict party (.arrive r)) (hstack : Expects w strict stack rest)
    (hobeys : Obeys ⟨w, thread, .arrive r, stack⟩ (party :: rest)) :
    Obliged (arrive ⟨w, thread, .arrive r, stack⟩ r).world
      (partiesAfter ⟨w, thread, .arrive r, stack⟩ (party :: rest))
      (arrive ⟨w, thread, .arrive r, stack⟩ r).control
      (arrive ⟨w, thread, .arrive r, stack⟩ r).stack := by
  cases hfits with
  | arrive hr =>
    rw [Machine.arrive]
    split
    · rename_i safepoints harrive
      have hkeeps := (hw.safepoints safepoints).keeps
      have hnone : deciding? ⟨w, thread, .arrive r, stack⟩ = none := by
        cases r <;> simp [deciding?, harrive]
      have hparties : partiesAfter ⟨w, thread, .arrive r, stack⟩ (party :: rest) = party :: rest := by
        simp only [partiesAfter, partiesOnward, hnone]
      rw [hparties]
      refine .intro (.poll party fun hstrict r₀ hr₀ => ?_) (hstack.of_keepsFlags hkeeps)
      exact (hr hstrict r₀ hr₀).of_keepsFlags hkeeps
    · rename_i safepoints harrive
      have hafter := hw.safepoints safepoints
      have hdeciding : deciding? ⟨w, thread, .arrive r, stack⟩ =
          r.map fun r => ({ w with safepoints }, r) := by
        cases r <;> simp [deciding?, harrive]
      refine obliged_enter hafter.hooked hdeciding (fun p hp => hobeys.hasProperClass hp)
        (fun hstrict r₀ hr₀ => ?_) (hstack.of_keepsFlags hafter.keeps)
      exact (hr hstrict r₀ hr₀).of_keepsFlags hafter.keeps

/-- At a safepoint, an action of the program is run, or the call is decided. -/
theorem obliged_atSafepoint {thread : ThreadId} {r : Option Request} {stack : List Waiting}
    (hw : w.Hooked) (hfits : Fits w strict party (.poll r)) (hstack : Expects w strict stack rest)
    (hobeys : Obeys ⟨w, thread, .poll r, stack⟩ (party :: rest))
    (hnext : atSafepoint ⟨w, thread, .poll r, stack⟩ r = some m') :
    Obliged m'.world (partiesAfter ⟨w, thread, .poll r, stack⟩ (party :: rest)) m'.control
      m'.stack := by
  cases hfits with
  | poll hr =>
    rw [atSafepoint] at hnext
    split at hnext
    · cases hnext
    · rename_i action safepoints haction
      obtain rfl := Option.some.inj hnext
      have hkeeps := (hw.safepoints safepoints).keeps
      have hparties : partiesAfter ⟨w, thread, .poll r, stack⟩ (party :: rest) =
          .program :: party :: rest := by
        simp only [partiesAfter, haction]
      rw [hparties]
      refine .intro (.free (.inl rfl) action none)
        (.safepoint party (fun hstrict r₀ hr₀ => ?_) (hstack.of_keepsFlags hkeeps))
      exact (hr hstrict r₀ hr₀).of_keepsFlags hkeeps
    · rename_i safepoints hpass
      obtain rfl := Option.some.inj hnext
      have hafter := hw.safepoints safepoints
      have hparties : partiesAfter ⟨w, thread, .poll r, stack⟩ (party :: rest) =
          partiesOnward ⟨w, thread, .poll r, stack⟩ (party :: rest) := by
        simp only [partiesAfter, hpass]
      have hdeciding : deciding? ⟨w, thread, .poll r, stack⟩ =
          r.map fun r => ({ w with safepoints }, r) := by
        cases r <;> simp [deciding?, hpass]
      rw [hparties]
      refine obliged_enter hafter.hooked hdeciding (fun p hp => hobeys.hasProperClass hp)
        (fun hstrict r₀ hr₀ => ?_) (hstack.of_keepsFlags hafter.keeps)
      exact (hr hstrict r₀ hr₀).of_keepsFlags hafter.keeps

/-- An outcome meets what the next computation on the stack waits for. -/
theorem obliged_resume {outcome : Except Fault Dispatched} {top : Waiting} {stack : List Waiting}
    (m : Machine) (hfits : Fits m.world strict party (.result outcome))
    (hstack : Expects m.world strict (top :: stack) rest) :
    Obliged (m.resume outcome stack top).world rest (m.resume outcome stack top).control
      (m.resume outcome stack top).stack := by
  cases hfits with
  | result houtcome =>
    cases hstack with
    | free hfree k block hrest => exact .intro (.free hfree _ _) hrest
    | @harmless strict' party' receiver hreceiver k hk block _ parties hrest =>
      exact .intro (.harmless strict' party' hreceiver (hk outcome (houtcome rfl)) block) hrest
    | safepoint party' hr hrest =>
      cases outcome with
      | ok d => exact .intro (.poll party' hr) hrest
      | error f => exact .intro (.result party' fun _ => houtcome rfl) hrest

theorem Conforms.world_step (hm : m.Conforms parties) (hobeys : m.Obeys parties)
    (hstep : m.step = .next m') :
    m'.world.Lawful ∧ m.world.hierarchy.KeepsFlags m'.world.hierarchy := by
  have hhooked := hm.lawful.hooked
  refine step_world (P := fun w => w.Lawful ∧ m.world.hierarchy.KeepsFlags w.hierarchy)
    ⟨hm.lawful, .refl _⟩ (fun safepoints => ⟨hm.lawful.safepoints safepoints, .refl _⟩)
    (fun e k block hcontrol => ?_) (fun q k block hcontrol => ?_) (fun safepoints r hr => ?_) hstep
  · rw [Obeys, hcontrol] at hobeys
    exact ⟨hm.lawful.edit hobeys, (hhooked.edit hobeys).keeps⟩
  · rw [Obeys, hcontrol] at hobeys
    exact ⟨hm.lawful.answer hobeys, (hhooked.answer hobeys).keeps⟩
  · have hlawful := hm.lawful.safepoints safepoints
    have hclass := hobeys.hasProperClass hr
    exact ⟨hlawful.decide hclass, (hlawful.hooked.safe_decide hclass).2.keeps⟩

/-- A step that keeps to the rules meets what is expected of it. -/
theorem Conforms.step (hm : m.Conforms parties) (hobeys : m.Obeys parties)
    (hstep : m.step = .next m') : m'.Conforms (m.partiesAfter parties) := by
  obtain ⟨hlawful, hkeeps⟩ := hm.world_step hobeys hstep
  refine ⟨hlawful, ?_⟩
  have hhooked := hm.lawful.hooked
  have hobliged := hm.obliged
  obtain ⟨world, thread, control, stack⟩ := m
  obtain ⟨hfits, hstack⟩ := hobliged
  rename_i strict party rest
  -- What is expected of the next computation depends on which part of a call has just been done.
  cases control with
  | run s block =>
    obtain rfl := Progress.next.inj hstep
    exact obliged_runScript hhooked hfits hstack hobeys hkeeps
  | arrive r =>
    obtain rfl := Progress.next.inj hstep
    exact obliged_arrive hhooked hfits hstack hobeys
  | poll r =>
    simp only [Machine.step] at hstep
    split at hstep
    · rename_i hnext
      obtain rfl := Progress.next.inj hstep
      exact obliged_atSafepoint hhooked hfits hstack hobeys hnext
    · cases hstep
  | result outcome =>
    cases stack with
    | nil => cases hstep
    | cons top stack =>
      obtain rfl := Progress.next.inj hstep
      exact obliged_resume ⟨world, thread, .result outcome, top :: stack⟩ hfits hstack

/-- If nothing waits for an outcome, it is not fatal. -/
theorem Conforms.notFatal_of_halted {outcome : Except Fault Dispatched} (hm : m.Conforms parties)
    (hstep : m.step = .halted outcome w) : NotFatal outcome := by
  have hobliged := hm.obliged
  obtain ⟨world, thread, control, stack⟩ := m
  obtain ⟨hfits, hstack⟩ := hobliged
  cases control with
  | run s block => cases hstep
  | arrive r => cases hstep
  | poll r =>
    simp only [Machine.step] at hstep
    split at hstep <;> cases hstep
  | result outcome' =>
    cases stack with
    | cons top stack => cases hstep
    | nil =>
      obtain ⟨rfl, -⟩ := Progress.halted.inj hstep
      cases hstack
      cases hfits with
      | result houtcome => exact houtcome rfl

theorem Conforms.run {steps : Nat} {outcome : Except Fault Dispatched} (hm : m.Conforms parties)
    (horderly : m.Orderly steps parties) (hrun : m.run steps = .halted outcome w) :
    NotFatal outcome ∧ w.Lawful := by
  induction steps generalizing m parties with
  | zero => cases hrun
  | succ steps ih =>
    obtain ⟨hobeys, hrest⟩ := horderly
    rw [Machine.run] at hrun
    cases hstep : m.step with
    | next m' =>
      rw [hstep] at hrun hrest
      exact ih (hm.step hobeys hstep) hrest hrun
    | halted outcome' w' =>
      rw [hstep] at hrun
      obtain ⟨rfl, rfl⟩ := End.halted.inj hrun
      rw [world_of_halted hstep]
      exact ⟨hm.notFatal_of_halted hstep, hm.lawful⟩
    | blocked =>
      rw [hstep] at hrun
      cases hrun

theorem conforms_ofRequest (hw : w.Lawful) (thread : ThreadId) {r : Request}
    (hr : w.Knows r.receiver) : (ofRequest w thread r).Conforms [.runtime] := by
  refine ⟨hw, .intro (.arrive .runtime fun _ r₀ hr₀ => ?_) .nil⟩
  obtain rfl := Option.some.inj hr₀
  exact hr

end Machine

namespace World

/-- In every state that a program can bring about without taking the hook for missing methods away,
every class descends from the basic object, and no call of a receiver that exists ends in a fatal
fault, by whatever route and in whatever mode it is made. The state that the call leaves is another
such state. -/
theorem dispatch_not_fatal {w : World} (hw : w.Lawful) :
    (∀ id r, w.hierarchy.get? id = some r → r.isModule = false →
      w.core.basicObject ∈ (w.hierarchy.ancestors id).1) ∧
    ∀ (thread : ThreadId) (r : Request), w.Knows r.receiver →
      ∀ steps, (Machine.ofRequest w thread r).Orderly steps [.runtime] →
        ∀ outcome w', (Machine.ofRequest w thread r).run steps = .halted outcome w' →
          NotFatal outcome ∧ w'.Lawful := by
  have hhooked := hw.hooked
  refine ⟨fun id r hr hmodule => ?_, fun thread r hr steps horderly outcome w' hrun => ?_⟩
  · refine hhooked.rooted.mem_ancestors hhooked.sound.hierarchy ?_
    exact Hierarchy.isClass_of_kin? (Hierarchy.kin?_eq_some_iff.mpr ⟨r, hr, rfl⟩) hmodule
  · exact (Machine.conforms_ofRequest hw thread hr).run horderly hrun

/-- A method that sends itself a name which nothing defines, in a class that was moved right below
the basic object. -/
theorem dispatch_not_fatal_after_move :
    let foo : ClassId := ⟨13⟩
    let body : Body := fun inv => .send inv.receiver ⟨"nowhere"⟩ [] .nothing true .answer
    let made := ((start {}).edit (.create "Foo" (some ⟨1⟩) {})).2
    let moved := (made.edit (.setSuperclass foo made.core.basicObject)).2
    let w := (moved.edit (.define foo ⟨"run"⟩ .pub body {})).2
    let r : Request := ⟨.uncached .publicCall, .object ⟨0, foo⟩, ⟨"run"⟩, [], none⟩
    ∃ f w', (Machine.ofRequest w ⟨0⟩ r).run 20 = .halted (.error f) w' ∧ f.isFatal = false := by
  intro foo body made moved w r
  have hmade : made.Lawful := (Lawful.start {}).edit (by decide +kernel)
  have hmoved : moved.Lawful := hmade.edit (by decide +kernel)
  have hw : w.Lawful := hmoved.edit (by decide +kernel)
  have hr : w.Knows r.receiver := by decide +kernel
  have horderly : (Machine.ofRequest w ⟨0⟩ r).Orderly 20 [.runtime] := by decide +kernel
  have hfails : ((Machine.ofRequest w ⟨0⟩ r).run 20).outcome?.map Except.isOk = some false := by
    decide +kernel
  obtain ⟨outcome, houtcome, herror⟩ := Option.map_eq_some_iff.mp hfails
  obtain ⟨w', hrun⟩ := Machine.End.exists_halted houtcome
  obtain ⟨hfault, -⟩ := (dispatch_not_fatal hw).2 ⟨0⟩ r hr 20 horderly outcome w' hrun
  cases outcome with
  | ok d => cases herror
  | error f => exact ⟨f, w', hrun, hfault⟩

end World

end LateBinding
