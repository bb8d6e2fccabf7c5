import LateBinding.Dispatch
import LateBinding.Proofs.World.Sound

namespace LateBinding

namespace World

/-- What is to be done about a call that finds no method. -/
def missing (w : World) (r : Request) (mode : Mode) : Decision :=
  if mode.isRespondTo then .answer (.responds false)
  else if mode.returnsMissing then .answer .missing
  else
    match (w.hierarchy.view (w.effectiveClass r.receiver) .methodMissing).lookupAny.method? with
    | some hook => .invoke hook r.receiver (.symbol r.name :: r.args) r.block
    | none => .fail (.hookMissing (w.core.describe w.hierarchy r.receiver) r.name)

/-- What is to be done about a call by what a look-up comes to. -/
def judge (w : World) (r : Request) (mode : Mode) : Lookup Target → Decision
  | .found m => r.found mode m
  | _ => w.missing r mode

/-- What is to be done about a call. -/
def verdict (w : World) (r : Request) (mode : Mode) : Decision :=
  match r.receiver with
  | .foreign f => w.decideForeign f r mode
  | receiver =>
    w.judge r mode ((w.hierarchy.view (w.effectiveClass receiver) r.name).lookup mode)

/-- The world in which the ancestors that matter to a receiver are remembered. -/
def settle (w : World) (v : Value) : World :=
  if v.isForeign then w
  else { w with hierarchy := (w.hierarchy.ancestors (w.effectiveClass v)).2 }

/-- A call is decided in a given way, and leaves a sound world like a given one. -/
structure Settles (w : World) (d : Decision) (out : Decision × World) : Prop where
  decision : out.1 = d
  alike : w.Alike out.2
  sound : out.2.Sound

variable {w w' : World} {h : Hierarchy Target} {r : Request} {mode : Mode} {d : Decision}
  {out : Decision × World} {id : Nat}

theorem Settles.of_alike (halike : w.Alike w') (hout : w'.Settles d out) : w.Settles d out :=
  ⟨hout.decision, halike.trans hout.alike, hout.sound⟩

theorem Alike.missing_eq (hw : w.Alike w') (r : Request) (mode : Mode) :
    w'.missing r mode = w.missing r mode := by
  simp only [missing, hw.effectiveClass_eq, hw.hierarchy, hw.core]

theorem Alike.judge_eq (hw : w.Alike w') (r : Request) (mode : Mode) (found : Lookup Target) :
    w'.judge r mode found = w.judge r mode found := by
  cases found <;> simp only [judge, hw.missing_eq]

theorem Alike.verdict_eq (hw : w.Alike w') (r : Request) (mode : Mode) :
    w'.verdict r mode = w.verdict r mode := by
  obtain ⟨route, receiver, name, args, block⟩ := r
  cases receiver <;>
    simp only [verdict, decideForeign, foreignObject, hw.effectiveClass_eq, hw.hierarchy,
      hw.judge_eq, hw.foreigns]

theorem Alike.settle (hw : w.Alike w') (v : Value) : (w.settle v).Alike (w'.settle v) := by
  rw [World.settle, World.settle]
  split
  · exact hw
  · rw [hw.effectiveClass_eq, hw.hierarchy]
    exact hw.withHierarchy _

/-- Remembered ancestors have no influence on a decision. -/
theorem Sound.judge_of_recalls (hw : w.Sound) (hrec : w.hierarchy.Recalls h) (r : Request)
    (mode : Mode) (found : Lookup Target) :
    { w with hierarchy := h }.judge r mode found = w.judge r mode found := by
  have hclass : { w with hierarchy := h }.effectiveClass r.receiver = w.effectiveClass r.receiver :=
    CoreClasses.effectiveClass_of_forget_eq hrec.forget_eq r.receiver
  have hview := hrec.view_eq hw.hierarchy.toStratified
  have hdescribe : w.core.describe h r.receiver = w.core.describe w.hierarchy r.receiver :=
    CoreClasses.describe_of_forget_eq hrec.forget_eq r.receiver
  cases found <;> simp only [judge, missing, hclass, hview, hdescribe]

/-- Behind a walk from the class of a receiver, the ancestors of this class are remembered. -/
theorem Sound.ancestors_effectiveClass (hw : w.Sound) {v : Value}
    (halike : { w with hierarchy := (w.hierarchy.ancestors (w.effectiveClass v)).2 }.Alike w') :
    (w'.hierarchy.ancestors (w'.effectiveClass v)).2 = w'.hierarchy := by
  have hrec := hw.hierarchy.recalls_ancestors (w.effectiveClass v)
  have hclass : w'.effectiveClass v = w.effectiveClass v :=
    (halike.effectiveClass_eq v).trans
      (CoreClasses.effectiveClass_of_forget_eq hrec.forget_eq v)
  rw [hclass, halike.hierarchy]
  exact hw.hierarchy.ancestors_ancestors _

theorem Sound.decideMissing_settles (hw : w.Sound) (r : Request) (mode : Mode)
    (hkept : (w.hierarchy.ancestors (w.effectiveClass r.receiver)).2 = w.hierarchy) :
    w.Settles (w.missing r mode) (w.decideMissing r mode) := by
  rw [decideMissing, missing]
  split
  · exact ⟨rfl, .refl w, hw⟩
  · split
    · exact ⟨rfl, .refl w, hw⟩
    · obtain ⟨hfound, halike, hsound⟩ := hw.findMethod_spec r.receiver .methodMissing
      rw [hkept] at halike
      rw [← hfound]
      generalize w.findMethod r.receiver .methodMissing = asked at halike hsound
      obtain ⟨found, w₁⟩ := asked
      cases found with
      | some hook => exact ⟨rfl, halike, hsound⟩
      | none =>
        have hcore : w₁.core = w.core := halike.core
        have hhierarchy : w₁.hierarchy = w.hierarchy := halike.hierarchy
        refine ⟨?_, halike, hsound⟩
        simp only [hcore, hhierarchy]

theorem Sound.decideFound_settles (hw : w.Sound) (r : Request) (mode : Mode)
    (hkept : (w.hierarchy.ancestors (w.effectiveClass r.receiver)).2 = w.hierarchy)
    (found : Lookup Target) :
    w.Settles (w.judge r mode found) (w.decideFound r mode found) := by
  cases found with
  | found m => exact ⟨rfl, .refl w, hw⟩
  | _ => exact hw.decideMissing_settles r mode hkept

private theorem decideUncached_native (hr : r.receiver.isForeign = false) :
    w.decideUncached r mode =
      (({ w with dispatches := w.dispatches + 1 }.lookup (w.effectiveClass r.receiver) r.name
        mode).2.decideFound r mode
          ({ w with dispatches := w.dispatches + 1 }.lookup (w.effectiveClass r.receiver) r.name
            mode).1) := by
  obtain ⟨route, receiver, name, args, block⟩ := r
  cases receiver <;> first | rfl | cases hr

theorem verdict_native (hr : r.receiver.isForeign = false) :
    w.verdict r mode =
      w.judge r mode ((w.hierarchy.view (w.effectiveClass r.receiver) r.name).lookup mode) := by
  obtain ⟨route, receiver, name, args, block⟩ := r
  cases receiver <;> first | rfl | cases hr

theorem settle_native {v : Value} (hv : v.isForeign = false) :
    w.settle v = { w with hierarchy := (w.hierarchy.ancestors (w.effectiveClass v)).2 } := by
  rw [settle, hv]
  rfl

/-- A call that looks for its method afresh is decided by the hierarchy alone. -/
theorem Sound.decideUncached_settles (hw : w.Sound) (r : Request) (mode : Mode) :
    (w.settle r.receiver).Settles (w.verdict r mode) (w.decideUncached r mode) := by
  have hcounted : { w with dispatches := w.dispatches + 1 }.Sound := hw.of_eq rfl rfl rfl rfl
  cases hr : r.receiver.isForeign with
  | true =>
    obtain ⟨route, receiver, name, args, block⟩ := r
    cases receiver with
    | foreign f => exact ⟨rfl, { Alike.refl w with }, hcounted⟩
    | _ => cases hr
  | false =>
    rw [decideUncached_native hr, verdict_native hr, settle_native hr]
    obtain ⟨hfound, halike, hsound⟩ :=
      hcounted.lookup_spec (w.effectiveClass r.receiver) r.name mode
    have hkept := hcounted.ancestors_effectiveClass halike
    have hsettled := hsound.decideFound_settles r mode hkept
      ((w.hierarchy.view (w.effectiveClass r.receiver) r.name).lookup mode)
    have hrec := hw.hierarchy.recalls_ancestors (w.effectiveClass r.receiver)
    rw [halike.judge_eq, hcounted.judge_of_recalls hrec, ← hfound] at hsettled
    rw [← hfound]
    exact .of_alike { halike with } hsettled

end World

end LateBinding
