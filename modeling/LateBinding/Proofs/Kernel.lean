import LateBinding.Kernel

namespace LateBinding

/-- The outcome is not a fatal fault. -/
def NotFatal {α : Type} : Except Fault α → Prop
  | .ok _ => True
  | .error f => f.isFatal = false

instance {α : Type} (outcome : Except Fault α) : Decidable (NotFatal outcome) := by
  cases outcome <;> unfold NotFatal <;> infer_instance

theorem NotFatal.map {α β : Type} {outcome : Except Fault α} (houtcome : NotFatal outcome)
    (f : α → β) : NotFatal (outcome.map f) := by
  cases outcome with
  | ok a => exact trivial
  | error fault => exact houtcome

/-- The script serves the receiver, and does not end with a fatal fault if it is given none. -/
inductive Script.Harmless (receiver : Value) : Script → Prop where
  | done {outcome : Except Fault Value} (houtcome : NotFatal outcome) :
    Harmless receiver (.done outcome)
  | call {c : Call} {block : Passing (List Value → Script)} {k : Except Fault Dispatched → Script}
    (hc : c.receiver = receiver) (hk : ∀ outcome, NotFatal outcome → Harmless receiver (k outcome)) :
    Harmless receiver (.call c block k)
  | singletonClass {k : Except Fault ClassId → Script}
    (hk : ∀ made, NotFatal made → Harmless receiver (k made)) :
    Harmless receiver (.ask (.singletonClassOf receiver) k)
  | ask {q : Query} {k : q.Answer → Script} (hq : ∀ v, q ≠ .singletonClassOf v)
    (hk : ∀ answer, Harmless receiver (k answer)) : Harmless receiver (.ask q k)

/-- Whatever receiver it is called with, the body serves this receiver. -/
def Body.Harmless (body : Body) : Prop := ∀ inv, (body inv).Harmless inv.receiver

namespace Script

variable {receiver : Value}

theorem harmless_answer (v : Value) : (Script.answer v).Harmless receiver := .done trivial

theorem harmless_fail {f : Fault} (hf : f.isFatal = false) : (Script.fail f).Harmless receiver :=
  .done hf

theorem harmless_orFail {α : Type} {k : α → Script} (hk : ∀ a, (k a).Harmless receiver)
    {outcome : Except Fault α} (houtcome : NotFatal outcome) :
    (orFail k outcome).Harmless receiver := by
  cases outcome with
  | ok a => exact hk a
  | error f => exact harmless_fail houtcome

theorem harmless_send {name : Symbol} {args : List Value} {block : Passing (List Value → Script)}
    {ignoreVisibility : Bool} {k : Value → Script} (hk : ∀ v, (k v).Harmless receiver) :
    (send receiver name args block ignoreVisibility k).Harmless receiver :=
  .call rfl fun _ houtcome => harmless_orFail (fun d => hk d.toValue) houtcome

theorem harmless_respondsTo {name : Symbol} {includePrivate : Bool} {k : Bool → Script}
    (hk : ∀ b, (k b).Harmless receiver) :
    (respondsTo receiver name includePrivate k).Harmless receiver :=
  .call rfl fun _ houtcome => harmless_orFail (fun d => hk d.toBool) houtcome

end Script

namespace Kernel

open Script

variable {receiver : Value}

theorem harmless_checkingArity {a : Arity} {inv : Invocation} {k : Script}
    (hk : k.Harmless receiver) : (checkingArity a inv k).Harmless receiver := by
  unfold checkingArity
  split
  · exact hk
  · exact harmless_fail rfl

theorem harmless_withName {v : Value} {k : Symbol → Script}
    (hk : ∀ name, (k name).Harmless receiver) : (withName v k).Harmless receiver := by
  unfold withName
  split
  · exact hk _
  · exact harmless_fail rfl

/-- Reporting a missing method is a fault that programs can deal with. -/
theorem harmless_methodMissing : Body.Harmless methodMissing := by
  intro inv
  unfold methodMissing
  split
  · exact harmless_fail rfl
  · apply harmless_withName
    intro name
    refine .ask nofun fun found => .ask nofun fun described => ?_
    exact harmless_fail rfl

theorem harmless_sendWith (ignoreVisibility : Bool) :
    Body.Harmless (sendWith ignoreVisibility) := by
  intro inv
  apply harmless_checkingArity
  apply harmless_withName
  intro name
  exact harmless_send harmless_answer

theorem harmless_respondTo : Body.Harmless respondTo := by
  intro inv
  apply harmless_checkingArity
  apply harmless_withName
  intro name
  apply harmless_respondsTo
  intro responds
  split
  · exact harmless_answer _
  · apply harmless_respondsTo
    intro hooked
    split
    · exact harmless_send fun v => harmless_answer _
    · exact harmless_answer _

theorem harmless_respondToMissing : Body.Harmless respondToMissing := by
  intro inv
  apply harmless_checkingArity
  exact harmless_answer _

theorem harmless_classOf : Body.Harmless classOf := by
  intro inv
  apply harmless_checkingArity
  exact .ask nofun fun id => harmless_answer _

theorem harmless_singletonClass : Body.Harmless singletonClass := by
  intro inv
  apply harmless_checkingArity
  refine .singletonClass fun made hmade => ?_
  exact harmless_orFail (fun id => harmless_answer _) hmade

/-- Every kernel method is harmless. -/
theorem harmless_of_mem_definitions {core : CoreClasses} {e : Edit Body}
    (he : e ∈ definitions core) : ∃ owner name visibility body,
      e = builtin owner name visibility body ∧ Body.Harmless body := by
  simp only [definitions, List.mem_cons, List.not_mem_nil, or_false] at he
  rcases he with rfl | rfl | rfl | rfl | rfl | rfl | rfl | rfl
  · exact ⟨_, _, _, _, rfl, harmless_methodMissing⟩
  · exact ⟨_, _, _, _, rfl, harmless_sendWith true⟩
  · exact ⟨_, _, _, _, rfl, harmless_sendWith true⟩
  · exact ⟨_, _, _, _, rfl, harmless_sendWith false⟩
  · exact ⟨_, _, _, _, rfl, harmless_respondTo⟩
  · exact ⟨_, _, _, _, rfl, harmless_respondToMissing⟩
  · exact ⟨_, _, _, _, rfl, harmless_classOf⟩
  · exact ⟨_, _, _, _, rfl, harmless_singletonClass⟩

end Kernel

end LateBinding
