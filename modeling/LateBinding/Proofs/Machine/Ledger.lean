import Mathlib.Data.List.Perm.Basic
import LateBinding.Proofs.Machine.Shrinking

namespace LateBinding

open Machine

/-- A runtime, with what has happened at its safepoints since it began. -/
structure Ledger where
  world : World
  /-- The threads that hold the guards of pauses which were not dropped yet. A thread can hold many. -/
  guards : List ThreadId
  /-- The polls that wait for pauses of others. -/
  waiting : List Machine
  /-- The actions that were submitted, oldest first. -/
  submitted : List Script
  /-- The actions that were begun, in order. -/
  begun : List Script

namespace Ledger

/-- The ledger of a runtime at whose safepoints nothing has happened. -/
def opened (w : World) : Ledger :=
  { world := w, guards := [], waiting := [], submitted := [], begun := [] }

/-- Changes the safepoints. -/
def atSafepoints (l : Ledger) (change : Safepoints Script → Safepoints Script) : Ledger :=
  { l with world := { l.world with safepoints := change l.world.safepoints } }

/-- Leaves an action to be run by the next thread that polls. -/
def submit (l : Ledger) (action : Script) : Ledger :=
  { l.atSafepoints (·.submit action) with submitted := l.submitted ++ [action] }

/-- A thread takes a pause and gets a guard for it. -/
def pause (l : Ledger) (t : ThreadId) : Ledger :=
  { l.atSafepoints (·.pause t) with guards := l.guards ++ [t] }

/-- Drops a guard, which gives up a pause of the thread that has got it. -/
def drop (l : Ledger) (i : Fin l.guards.length) : Ledger :=
  { l.atSafepoints (·.release l.guards[i]) with guards := l.guards.eraseIdx i }

/-- Enters what has happened to actions on the way to a world. -/
def record (l : Ledger) (log : List Event) (w : World) : Ledger :=
  { l with world := w, submitted := l.submitted ++ submittedIn log, begun := l.begun ++ begunIn log }

/-- The poll runs next, and the others wait. It begins, or has waited before. -/
inductive Polls (l : Ledger) : Machine → List Machine → Prop where
  | comes (t : ThreadId) : Polls l (.ofPoll l.world t) l.waiting
  | wakes (i : Fin l.waiting.length) :
    Polls l { l.waiting[i] with world := l.world } (l.waiting.eraseIdx i)

/-- A program uses safepoints, one operation at a time. Its actions neither poll nor pause. -/
inductive Kept : Ledger → Prop where
  | opened (w : World) (hw : w.safepoints = .idle) : Kept (opened w)
  | submit {l : Ledger} (hl : Kept l) {action : Script} (haction : action.Quiet) :
    Kept (l.submit action)
  | interrupt {l : Ledger} (hl : Kept l) (reason : String) :
    Kept (l.submit (.fail (.interrupted reason)))
  | pause {l : Ledger} (hl : Kept l) (t : ThreadId) : Kept (l.pause t)
  | drop {l : Ledger} (hl : Kept l) (i : Fin l.guards.length) : Kept (l.drop i)
  /-- A poll comes to its end. -/
  | passed {l : Ledger} (hl : Kept l) {m : Machine} {waiting : List Machine}
    (hm : l.Polls m waiting) {steps : Nat} {outcome : Except Fault Dispatched} {w : World}
    (hrun : m.run steps = .halted outcome w) :
    Kept { l.record (m.events steps) w with waiting }
  /-- A poll has to wait. -/
  | stopped {l : Ledger} (hl : Kept l) {m m' : Machine} {waiting : List Machine}
    (hm : l.Polls m waiting) {steps : Nat} (hrun : m.run steps = .blocked m') :
    Kept { l.record (m.events steps) m'.world with waiting := m' :: waiting }
  /-- Something else happens to the runtime. -/
  | elsewhere {l : Ledger} (hl : Kept l) {w : World}
    (hsame : w.safepoints = l.world.safepoints) : Kept { l with world := w }

/-- The ledger agrees with what the runtime knows. -/
structure Balanced (l : Ledger) : Prop where
  coherent : l.world.safepoints.Coherent
  holders_perm : l.world.safepoints.holders.Perm l.guards
  queue_eq : l.begun ++ l.world.safepoints.actions = l.submitted
  actionsRun_eq : l.world.safepoints.actionsRun = l.begun.length
  quiet : ∀ action ∈ l.world.safepoints.actions, action.Quiet
  waiting : ∀ m ∈ l.waiting, m.control = .poll none ∧ m.stack = []

variable {l : Ledger} {m : Machine} {waiting : List Machine} {action : Script} {t : ThreadId}

theorem balanced_opened {w : World} (hw : w.safepoints = .idle) : (opened w).Balanced where
  coherent := by
    rw [opened, hw]
    exact Safepoints.coherent_idle
  holders_perm := by
    rw [opened, hw]
    exact .nil
  queue_eq := by
    rw [opened, hw]
    rfl
  actionsRun_eq := by
    rw [opened, hw]
    rfl
  quiet action haction := by
    rw [opened, hw] at haction
    cases haction
  waiting m hm := by cases hm

theorem Balanced.submit (hl : l.Balanced) (haction : action.Quiet) : (l.submit action).Balanced where
  coherent := .submit action
  holders_perm := hl.holders_perm
  queue_eq := by
    simp only [Ledger.submit, atSafepoints, Safepoints.submit]
    rw [← List.append_assoc, hl.queue_eq]
  actionsRun_eq := hl.actionsRun_eq
  quiet a ha := by
    rcases List.mem_append.mp ha with hold | hnew
    · exact hl.quiet a hold
    · rwa [List.mem_singleton.mp hnew]
  waiting := hl.waiting

theorem Balanced.pause (hl : l.Balanced) (t : ThreadId) : (l.pause t).Balanced where
  coherent := .pause t
  holders_perm := hl.holders_perm.append_right [t]
  queue_eq := hl.queue_eq
  actionsRun_eq := hl.actionsRun_eq
  quiet := hl.quiet
  waiting := hl.waiting

/-- A thread that drops one of its guards gives up one pause, no matter which. -/
theorem Balanced.drop (hl : l.Balanced) (i : Fin l.guards.length) : (l.drop i).Balanced where
  coherent := .release _
  holders_perm := by
    have hguards := List.getElem_cons_eraseIdx_perm i.isLt
    have herased := (hl.holders_perm.trans hguards.symm).erase l.guards[i]
    rwa [Fin.getElem_fin, List.erase_cons_head] at herased
  queue_eq := hl.queue_eq
  actionsRun_eq := hl.actionsRun_eq
  quiet := hl.quiet
  waiting := hl.waiting

/-- A log that tells what has happened to the safepoints can be entered. -/
theorem Balanced.record (hl : l.Balanced) {log : List Event} {w : World}
    (hlog : Tells log l.world.safepoints w.safepoints)
    (hwaiting : ∀ m ∈ waiting, m.control = .poll none ∧ m.stack = []) :
    Balanced { l.record log w with waiting } where
  coherent := hlog.coherent
  holders_perm := by
    rw [Ledger.record, hlog.holders_eq]
    exact hl.holders_perm
  queue_eq := by
    simp only [Ledger.record]
    rw [List.append_assoc, hlog.queue_eq, ← List.append_assoc, hl.queue_eq]
  actionsRun_eq := by
    simp only [Ledger.record]
    rw [hlog.actionsRun_eq, hl.actionsRun_eq, List.length_append]
  quiet := hlog.quiet
  waiting := hwaiting

theorem Balanced.elsewhere (hl : l.Balanced) {w : World}
    (hsame : w.safepoints = l.world.safepoints) : Balanced { l with world := w } := by
  obtain ⟨hcoherent, hholders, hqueue, hactionsRun, hquiet, hwaiting⟩ := hl
  rw [← hsame] at hcoherent hholders hqueue hactionsRun hquiet
  exact ⟨hcoherent, hholders, hqueue, hactionsRun, hquiet, hwaiting⟩

/-- A poll sets out, whether it begins or has waited before. -/
theorem Balanced.draining (hl : l.Balanced) (hm : l.Polls m waiting) :
    Draining l.world.safepoints m.thread [] m := by
  have htells := tells_nil hl.coherent hl.quiet
  cases hm with
  | comes t => exact ⟨rfl, htells, .arriving rfl⟩
  | wakes i =>
    obtain ⟨hcontrol, hstack⟩ := hl.waiting _ (List.getElem_mem i.isLt)
    refine ⟨rfl, htells, ?_⟩
    simp only [Fin.getElem_fin, hcontrol, hstack]
    exact .polling ranWell_nil

theorem Balanced.waiting_of_polls (hl : l.Balanced) (hm : l.Polls m waiting) :
    ∀ m ∈ waiting, m.control = .poll none ∧ m.stack = [] := by
  cases hm with
  | comes t => exact hl.waiting
  | wakes i => exact fun m hm => hl.waiting m (List.mem_of_mem_eraseIdx hm)

/-- Every operation keeps the agreement. -/
theorem Kept.balanced (hl : l.Kept) : l.Balanced := by
  induction hl with
  | opened w hw => exact balanced_opened hw
  | submit _ haction ih => exact ih.submit haction
  | interrupt _ reason ih => exact ih.submit (.done _)
  | pause _ t ih => exact ih.pause t
  | drop _ i ih => exact ih.drop i
  | passed _ hm hrun ih =>
    exact ih.record (((ih.draining hm).run _).1 _ _ hrun).tells (ih.waiting_of_polls hm)
  | stopped _ hm hrun ih =>
    obtain ⟨hdraining, hstep⟩ := ((ih.draining hm).run _).2 _ hrun
    refine ih.record hdraining.tells ?_
    rintro m (_ | ⟨_, hmem⟩)
    · exact (hdraining.blocked hstep).2
    · exact ih.waiting_of_polls hm m hmem
  | elsewhere _ hsame ih => exact ih.elsewhere hsame

theorem Balanced.holders_eq_nil_iff (hl : l.Balanced) :
    l.world.safepoints.holders = [] ↔ l.guards = [] := by
  constructor
  · intro hnil
    exact (hnil ▸ hl.holders_perm).nil_eq.symm
  · intro hnil
    exact (hnil ▸ hl.holders_perm).eq_nil

theorem Balanced.blocks_eq_false_iff (hl : l.Balanced) (t : ThreadId) :
    l.world.safepoints.blocks t = false ↔ l.guards = [] ∨ t ∈ l.guards := by
  rw [Safepoints.blocks, Safepoints.isPaused]
  simp [hl.holders_eq_nil_iff, hl.holders_perm.mem_iff, Classical.or_iff_not_imp_left]

/-- The safepoints do what they are for, however a program uses them. The flag is up exactly if there is
something to do, and the pauses are those whose guards live. No action is lost: those that were begun are
the first that were submitted, each begun once, and the others wait in order. A poll comes to an end
exactly if no pause is held or its own thread holds one. If it ends well it leaves no action, and if it
fails it has run the actions up to the first that fails and leaves those behind it. -/
theorem safepoints_accounted (hl : l.Kept) :
    (l.world.safepoints.requested = true ↔
      l.world.safepoints.actions ≠ [] ∨ l.world.safepoints.holders ≠ []) ∧
    l.world.safepoints.holders.Perm l.guards ∧
    (l.world.safepoints.isPaused = true ↔ l.guards ≠ []) ∧
    l.begun ++ l.world.safepoints.actions = l.submitted ∧
    l.world.safepoints.actionsRun = l.begun.length ∧
    l.world.safepoints.actionsRun + l.world.safepoints.pending = l.submitted.length ∧
    ∀ m waiting, l.Polls m waiting →
      ((∃ steps outcome w, m.run steps = .halted outcome w) ↔
        l.guards = [] ∨ m.thread ∈ l.guards) ∧
      ∀ steps outcome w, m.run steps = .halted outcome w →
        (∀ d, outcome = .ok d → RanWell (m.events steps) 0 ∧ w.safepoints.actions = []) ∧
        ∀ f, outcome = .error f →
          RanUntil (m.events steps) f ∧
          begunIn (m.events steps) ++ w.safepoints.actions =
            l.world.safepoints.actions ++ submittedIn (m.events steps) := by
  have hbalanced := hl.balanced
  refine ⟨Safepoints.coherent_iff.mp hbalanced.coherent, hbalanced.holders_perm, ?_,
    hbalanced.queue_eq, hbalanced.actionsRun_eq, ?_, fun m waiting hm => ?_⟩
  · rw [Safepoints.isPaused]
    simp [hbalanced.holders_eq_nil_iff]
  · rw [hbalanced.actionsRun_eq, Safepoints.pending, ← List.length_append, hbalanced.queue_eq]
  · -- A poll is where `Draining` says after its log, in particular at its end.
    have hdraining := hbalanced.draining hm
    have hdrained {steps : Nat} {outcome : Except Fault Dispatched} {w : World} :=
      (hdraining.run steps).1 outcome w
    refine ⟨⟨?_, fun hfree => ?_⟩, fun steps outcome w hrun => ?_⟩
    · rintro ⟨steps, outcome, w, hrun⟩
      exact (hbalanced.blocks_eq_false_iff m.thread).mp (hdrained hrun).free
    · exact hdraining.exists_halted ((hbalanced.blocks_eq_false_iff m.thread).mpr hfree)
    · exact ⟨(hdrained hrun).ok, fun f herror =>
        ⟨(hdrained hrun).error f herror, (hdrained hrun).tells.queue_eq⟩⟩

/-- A poll that had to wait until a pause was over, and then meets an interrupt behind an action that has
submitted a further one. -/
theorem safepoints_accounted_at_interrupt :
    let done : Script := .answer .nil
    let l := ((((opened (.void {})).pause ⟨0⟩).submit (.submit done done)).submit
      (.fail (.interrupted "stop"))).submit done
    let kept := (Machine.ofPoll l.world ⟨1⟩).arrive none
    let freed := Ledger.drop { l with world := kept.world, waiting := [kept] } ⟨0, by decide⟩
    let m := { kept with world := freed.world }
    l.Kept ∧ (∀ steps outcome w, (Machine.ofPoll l.world ⟨1⟩).run steps ≠ .halted outcome w) ∧
      freed.Kept ∧ freed.Polls m [] ∧
      ∃ w, m.run 10 = .halted (.error (.interrupted "stop")) w ∧
        RanUntil (m.events 10) (.interrupted "stop") ∧ w.safepoints.actions.length = 2 ∧
        begunIn (m.events 10) ++ w.safepoints.actions =
          freed.world.safepoints.actions ++ submittedIn (m.events 10) := by
  intro done l kept freed m
  have hdone : done.Quiet := .done _
  have hl : l.Kept :=
    ((((Kept.opened _ rfl).pause ⟨0⟩).submit (.submit hdone hdone)).interrupt "stop").submit hdone
  have hkept : (Machine.ofPoll l.world ⟨1⟩).run 2 = .blocked kept := rfl
  have hfreed : freed.Kept := .drop (.stopped hl (.comes ⟨1⟩) hkept) ⟨0, by decide⟩
  have hm : freed.Polls m [] := .wakes ⟨0, by decide⟩
  obtain ⟨w, hrun, hleft⟩ : ∃ w, m.run 10 = .halted (.error (.interrupted "stop")) w ∧
      w.safepoints.actions.length = 2 := ⟨_, rfl, rfl⟩
  obtain ⟨-, -, -, -, -, -, hbefore⟩ := safepoints_accounted hl
  obtain ⟨-, -, -, -, -, -, hbehind⟩ := safepoints_accounted hfreed
  obtain ⟨hran, hqueue⟩ := ((hbehind m [] hm).2 10 _ w hrun).2 _ rfl
  refine ⟨hl, fun steps outcome w hends => ?_, hfreed, hm, w, hrun, hran, hleft, hqueue⟩
  rcases (hbefore _ _ (.comes ⟨1⟩)).1.mp ⟨steps, outcome, w, hends⟩ with hnone | hholds
  · cases hnone
  · revert hholds
    decide

end Ledger

end LateBinding
