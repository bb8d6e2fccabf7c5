import Mathlib.Logic.Hydra
import LateBinding.Proofs.Machine.Polling

namespace LateBinding

open Relation

/-- The first script is what the second one goes on with behind its first question, or submits there. -/
inductive Script.Part : Script → Script → Prop where
  | «yield» {args : List Value} {k : Except Fault Dispatched → Script} (outcome) :
    Part (k outcome) (.yield args k)
  | edit {e : Edit Body} {k : Except Fault Edited → Script} (outcome) : Part (k outcome) (.edit e k)
  | submitted {action k : Script} : Part action (.submit action k)
  | submit {action k : Script} : Part k (.submit action k)
  | ask {q : Query} {k : q.Answer → Script} (answer) : Part (k answer) (.ask q k)

theorem Script.acc_part : (s : Script) → Acc Part s
  | .done _ => ⟨_, fun _ h => by cases h⟩
  | .call _ _ _ => ⟨_, fun _ h => by cases h⟩
  | .invoke _ _ _ _ _ => ⟨_, fun _ h => by cases h⟩
  | .yield _ k => ⟨_, fun _ h => by
      cases h with
      | «yield» outcome => exact acc_part (k outcome)⟩
  | .edit _ k => ⟨_, fun _ h => by
      cases h with
      | edit outcome => exact acc_part (k outcome)⟩
  | .submit action k => ⟨_, fun _ h => by
      cases h with
      | submitted => exact acc_part action
      | submit => exact acc_part k⟩
  | .ask _ k => ⟨_, fun _ h => by
      cases h with
      | ask answer => exact acc_part (k answer)⟩

theorem Script.wellFounded_part : WellFounded Part := ⟨acc_part⟩

namespace Machine

/-- What a poll has still to do: the scripts that it runs and those that wait, and how far it is from
going on with one of them. -/
def remaining (m : Machine) : Multiset Script × Nat :=
  match m.control with
  | .run s _ => (s ::ₘ m.world.safepoints.actions, 0)
  | .arrive _ => (m.world.safepoints.actions, 2)
  | .poll _ => (m.world.safepoints.actions, 1)
  | .result _ => (m.world.safepoints.actions, 2 * m.stack.length)

/-- Less remains if a script has made place for some of its parts, or else if the poll is nearer to going
on with one. -/
def Shorter : Multiset Script × Nat → Multiset Script × Nat → Prop :=
  Prod.Lex (CutExpand Script.Part) (· < ·)

theorem wellFounded_shorter : WellFounded Shorter :=
  WellFounded.prod_lex Script.wellFounded_part.cutExpand Nat.lt_wfRel.wf

variable {start : Safepoints Script} {t : ThreadId} {log : List Event} {m m' : Machine} {s : Script}

theorem shorter_of_parts (parts : List Script) (hparts : ∀ s' ∈ parts, s'.Part s)
    (queue : List Script) (n n' : Nat) :
    Shorter (↑(queue ++ parts), n') (s ::ₘ queue, n) := by
  refine .left _ _ ?_
  rw [← Multiset.coe_add, ← Multiset.singleton_add, Multiset.add_comm {s}]
  exact (cutExpand_add_left _).mpr (cutExpand_singleton (by simpa using hparts))

theorem shorter_of_part {s' : Script} (hpart : s'.Part s) (queue : List Script) :
    Shorter (s' ::ₘ queue, 0) (s ::ₘ queue, 0) := by
  have hshorter := shorter_of_parts [s'] (by simpa using hpart) queue 0 0
  rwa [← Multiset.coe_add, Multiset.add_comm] at hshorter

/-- Where a quiet script goes on, less remains, also if it has submitted an action. -/
theorem shrinks_run (world : World) (thread : ThreadId) (stack : List Waiting) (hs : s.Quiet) :
    Shorter ((⟨world, thread, .run s none, stack⟩ : Machine).runScript none s).remaining
      (⟨world, thread, .run s none, stack⟩ : Machine).remaining := by
  cases hs with
  | done outcome =>
    have hshorter := shorter_of_parts (s := .done outcome) [] (by simp) world.safepoints.actions 0
      (2 * stack.length)
    rwa [List.append_nil] at hshorter
  | «yield» hk => exact shorter_of_part (.yield _) _
  | edit hk => exact shorter_of_part (.edit _) _
  | @submit action k haction hk =>
    have hshorter := shorter_of_parts (s := .submit action k) [action, k]
      (by simp [Script.Part.submitted, Script.Part.submit]) world.safepoints.actions 0 0
    have hperm := List.perm_append_singleton k (world.safepoints.actions ++ [action])
    rw [List.append_assoc, List.singleton_append] at hperm
    rwa [Multiset.coe_eq_coe.mpr hperm] at hshorter
  | @ask q k hk =>
    have hshorter := shorter_of_part (.ask (k := k) (world.answer q).1) world.safepoints.actions
    simp only [runScript, remaining, World.safepoints_answer]
    exact hshorter

/-- Every step of a poll leaves less to do. -/
theorem Draining.shrinks (hm : Draining start t log m) (hstep : m.step = .next m') :
    Shorter m'.remaining m.remaining := by
  have hstage := hm.stage
  obtain ⟨world, thread, control, stack⟩ := m
  -- A step of a script leaves smaller scripts. Any other step leaves them as they are, and brings the poll nearer
  -- to where it goes on with one.
  cases hstage with
  | arriving hlog =>
    obtain rfl := Progress.next.inj hstep
    cases hrequested : world.safepoints.requested with
    | true =>
      simp only [arrive, Safepoints.arrive, hrequested, if_true]
      exact .right _ Nat.one_lt_two
    | false =>
      simp only [arrive, Safepoints.arrive, hrequested, Bool.false_eq_true, if_false]
      exact .right _ Nat.two_pos
  | polling hran =>
    rcases world.safepoints.next_cases thread with
      ⟨-, hnext⟩ | ⟨-, -, hnext⟩ | ⟨action, taken, -, htakes, hnext⟩
    · simp only [Machine.step, atSafepoint, hnext] at hstep
      cases hstep
    · simp only [Machine.step, atSafepoint, hnext, Progress.next.injEq] at hstep
      subst hstep
      exact .right _ Nat.one_pos
    · simp only [Machine.step, atSafepoint, hnext, Progress.next.injEq] at hstep
      subst hstep
      simp only [remaining, htakes.actions_eq]
      exact .right _ Nat.one_pos
  | running hs hran hfree =>
    obtain rfl := Progress.next.inj hstep
    exact shrinks_run world thread _ hs
  | ending outcome hran hfree =>
    obtain rfl := Progress.next.inj hstep
    cases outcome with
    | ok d => exact .right _ Nat.one_lt_two
    | error f => exact .right _ Nat.two_pos
  | passed => cases hstep
  | failed => cases hstep

/-- A poll comes to an end if no pause keeps its thread. -/
theorem Draining.exists_halted (hm : Draining start t log m) (hfree : start.blocks t = false) :
    ∃ steps outcome w, m.run steps = .halted outcome w := by
  induction hremaining : m.remaining using wellFounded_shorter.induction generalizing m log with
  | h left ih =>
    cases hstep : m.step with
    | next m' =>
      subst hremaining
      obtain ⟨steps, outcome, w, hrun⟩ := ih _ (hm.shrinks hstep) (hm.step hstep) rfl
      refine ⟨steps + 1, outcome, w, ?_⟩
      rw [Machine.run, hstep]
      exact hrun
    | halted outcome w =>
      refine ⟨1, outcome, w, ?_⟩
      rw [Machine.run, hstep]
    | blocked =>
      have hkept := (hm.blocked hstep).1
      rw [hfree] at hkept
      cases hkept

end Machine

end LateBinding
