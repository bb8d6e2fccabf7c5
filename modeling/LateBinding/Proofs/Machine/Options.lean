import LateBinding.Proofs.Machine.CallSites

namespace LateBinding

/-- What a program asks of a runtime. -/
inductive Task where
  | edit (e : Edit Body)
  | ask (q : Query)
  | lookup (cls : ClassId) (name : Symbol) (mode : Mode)
  /-- Makes a call by any route. -/
  | call (thread : ThreadId) (r : Request)
  | poll (thread : ThreadId)
  /-- Makes a call site; without a limit, that of the options is used. -/
  | newSite (mode : Mode) (limit : Option Nat)
  | newObject (cls : ClassId)
  | newForeign (typeName : String) (object : ForeignObject)
  | clearCache
  /-- Submits an action, takes a pause, or gives one up. -/
  | safepoints (change : Safepoints Script → Safepoints Script)

/-- What a task comes to. -/
inductive Task.Result where
  | edited (outcome : Except Fault Edited)
  | answered (q : Query) (answer : q.Answer)
  | found (l : Lookup Target)
  /-- A run with all that could be seen of it, and its outcome if it came to an end. -/
  | ran (moments : List Machine.Moment) (outcome : Option (Except Fault Dispatched))
  | site (id : Nat)
  | value (v : Value)
  | done

/-- The task, except that it does not name a limit. -/
def Task.withoutLimit : Task → Task
  | .newSite mode _ => .newSite mode none
  | t => t

/-- The world in which a run has ended. -/
def Machine.End.world? : Machine.End → Option World
  | halted _ w => some w
  | _ => none

namespace World

/-- Follows a run for a number of steps. A program goes on only behind a run that ends. -/
def follow (steps : Nat) (m : Machine) : Task.Result × Option World :=
  (.ran (m.moments steps) (m.run steps).outcome?, (m.run steps).world?)

/-- Carries out a task. -/
def perform (steps : Nat) (w : World) : Task → Task.Result × Option World
  | .edit e => (.edited (w.edit e).1, some (w.edit e).2)
  | .ask q => (.answered q (w.answer q).1, some (w.answer q).2)
  | .lookup cls name mode =>
    (.found (w.lookup cls name mode).1, some (w.lookup cls name mode).2)
  | .call thread r => follow steps (.ofRequest w thread r)
  | .poll thread => follow steps (.ofPoll w thread)
  | .newSite mode limit =>
    let made := w.newSite mode (limit.getD w.options.siteLimit)
    (.site made.1, some made.2)
  | .newObject cls => (.value (w.newObject cls).1, some (w.newObject cls).2)
  | .newForeign typeName object =>
    (.value (w.newForeign typeName object).1, some (w.newForeign typeName object).2)
  | .clearCache => (.done, some { w with lookupCache := w.lookupCache.clear })
  | .safepoints change => (.done, some { w with safepoints := change w.safepoints })

/-- The results of tasks that are carried out one after the other, and what can be seen of the world
behind each of them. -/
def record (steps : Nat) : World → List Task → List (Task.Result × Option Face)
  | _, [] => []
  | w, t :: ts =>
    match w.perform steps t with
    | (result, some w') => (result, some w'.face) :: record steps w' ts
    | (result, none) => [(result, none)]

/-- A task makes records below records that exist, and its calls, also those that methods make, have
receivers whose class exists. -/
def Allows (steps : Nat) (w : World) : Task → Prop
  | .edit e => w.Admits e
  | .call thread r => (Machine.ofRequest w thread r).Regular steps
  | .poll thread => (Machine.ofPoll w thread).Regular steps
  | _ => True

/-- Each of several tasks is allowed where it is carried out. -/
def AllowsAll (steps : Nat) : World → List Task → Prop
  | _, [] => True
  | w, t :: ts =>
    w.Allows steps t ∧
      match (w.perform steps t).2 with
      | some w' => AllowsAll steps w' ts
      | none => True

instance (steps : Nat) (w : World) (t : Task) : Decidable (w.Allows steps t) := by
  cases t <;> unfold Allows <;> infer_instance

instance decidableAllowsAll (steps : Nat) :
    (w : World) → (ts : List Task) → Decidable (w.AllowsAll steps ts)
  | _, [] => inferInstanceAs (Decidable True)
  | w, t :: ts =>
    have _hrest : Decidable
        (match (w.perform steps t).2 with | some w' => AllowsAll steps w' ts | none => True) :=
      match (w.perform steps t).2 with
      | some w' => decidableAllowsAll steps w' ts
      | none => inferInstanceAs (Decidable True)
    inferInstanceAs (Decidable (_ ∧ _))

variable {modes : Array Mode} {w w' : World}

theorem Twins.self_modes (hw : Twins modes w w') : Twins w.modes w w' :=
  ⟨hw.alike, hw.sound, hw.sound', rfl⟩

theorem Twins.lookup (hw : Twins modes w w') (cls : ClassId) (name : Symbol) (mode : Mode) :
    (w'.lookup cls name mode).1 = (w.lookup cls name mode).1 ∧
      Twins modes (w.lookup cls name mode).2 (w'.lookup cls name mode).2 := by
  obtain ⟨hfound, hleft, hsound⟩ := hw.sound.lookup_spec cls name mode
  obtain ⟨hfound', hright, hsound'⟩ := hw.sound'.lookup_spec cls name mode
  rw [hw.alike.hierarchy] at hfound' hright
  refine ⟨hfound'.trans hfound.symm, ⟨?_, hsound, hsound', ?_⟩⟩
  · exact hleft.symm.trans ((hw.alike.withHierarchy _).trans hright)
  · have hmodes : (w.lookup cls name mode).2.modes = w.modes := hleft.modes
    rw [hmodes, hw.modes_eq]

theorem modes_newSite (w : World) (mode : Mode) (limit : Nat) :
    (w.newSite mode limit).2.modes = w.modes.push mode := by
  simp [newSite, World.modes, CallSite.new]

/-- A call site may have any limit. -/
theorem Twins.newSite (hw : Twins modes w w') (mode : Mode) (limit limit' : Nat) :
    (w'.newSite mode limit').1 = (w.newSite mode limit).1 ∧
      Twins (modes.push mode) (w.newSite mode limit).2 (w'.newSite mode limit').2 := by
  refine ⟨hw.alike.size_sites, ⟨?_, hw.sound.newSite .., hw.sound'.newSite .., ?_⟩⟩
  · refine { hw.alike with modes := ?_ }
    rw [modes_newSite, modes_newSite, hw.alike.modes]
  · rw [modes_newSite, hw.modes_eq]

theorem Twins.clearCache (hw : Twins modes w w') :
    Twins modes { w with lookupCache := w.lookupCache.clear }
      { w' with lookupCache := w'.lookupCache.clear } where
  alike := { hw.alike with }
  sound := hw.sound.clearCache
  sound' := hw.sound'.clearCache
  modes_eq := hw.modes_eq

theorem Twins.newObject (hw : Twins modes w w') (cls : ClassId) :
    (w'.newObject cls).1 = (w.newObject cls).1 ∧
      Twins modes (w.newObject cls).2 (w'.newObject cls).2 := by
  have hserial := hw.alike.serial
  have halike : (w.newObject cls).2.Alike (w'.newObject cls).2 :=
    { hw.alike with serial := by simp only [World.newObject, hserial] }
  refine ⟨?_, halike, hw.sound.of_eq rfl rfl rfl rfl, hw.sound'.of_eq rfl rfl rfl rfl, hw.modes_eq⟩
  simp only [World.newObject, hserial]

theorem Twins.newForeign (hw : Twins modes w w') (typeName : String) (object : ForeignObject) :
    (w'.newForeign typeName object).1 = (w.newForeign typeName object).1 ∧
      Twins modes (w.newForeign typeName object).2 (w'.newForeign typeName object).2 := by
  have hserial := hw.alike.serial
  have hforeigns := hw.alike.foreigns
  have halike : (w.newForeign typeName object).2.Alike (w'.newForeign typeName object).2 :=
    { hw.alike with
      serial := by simp only [World.newForeign, hserial]
      foreigns := by simp only [World.newForeign, hserial, hforeigns] }
  refine ⟨?_, halike, hw.sound.of_eq rfl rfl rfl rfl, hw.sound'.of_eq rfl rfl rfl rfl, hw.modes_eq⟩
  simp only [World.newForeign, hserial]

/-- The two runtimes are twins, whatever modes their call sites have. -/
def Siblings (w w' : World) : Prop := Twins w.modes w w'

theorem follow_of_alike {steps : Nat} {m m' : Machine} (hm : m.Alike modes m')
    (hregular : m.Regular steps) :
    (follow steps m').1 = (follow steps m).1 ∧
      Option.Rel Siblings (follow steps m).2 (follow steps m').2 := by
  have hend := hm.run hregular
  refine ⟨?_, ?_⟩
  · simp only [follow, hm.moments_eq hregular, hend.outcome?_eq]
  · simp only [follow]
    generalize m.run steps = e at hend
    generalize m'.run steps = e' at hend
    cases hend with
    | halted outcome hw => exact .some hw.self_modes
    | blocked => exact .none
    | unfinished => exact .none

private theorem eq_or_newSite {t t' : Task} (ht : t'.withoutLimit = t.withoutLimit) :
    t' = t ∨ ∃ mode limit limit', t = .newSite mode limit ∧ t' = .newSite mode limit' := by
  cases t <;> cases t' <;> simp_all [Task.withoutLimit]

/-- A task comes to the same in twin worlds, whatever limit it names. -/
theorem Siblings.perform (hw : Siblings w w') {t t' : Task}
    (ht : t'.withoutLimit = t.withoutLimit) {steps : Nat} (hallows : w.Allows steps t) :
    (w'.perform steps t').1 = (w.perform steps t).1 ∧
      Option.Rel Siblings (w.perform steps t).2 (w'.perform steps t').2 := by
  have hrequest (r : Request) : r.Alike w.modes r := ⟨rfl, rfl, rfl, rfl, rfl⟩
  -- Two tasks that differ in nothing but a limit make call sites.
  rcases eq_or_newSite ht with rfl | ⟨mode, limit, limit', rfl, rfl⟩
  · cases t' with
    | edit e =>
      obtain ⟨houtcome, hafter⟩ := Twins.edit hw hallows
      exact ⟨congrArg Task.Result.edited houtcome, .some hafter.self_modes⟩
    | ask q =>
      obtain ⟨hanswer, hafter⟩ := Twins.answer hw q
      exact ⟨congrArg (Task.Result.answered q) hanswer, .some hafter.self_modes⟩
    | lookup cls name mode =>
      obtain ⟨hfound, hafter⟩ := Twins.lookup hw cls name mode
      exact ⟨congrArg Task.Result.found hfound, .some hafter.self_modes⟩
    | call thread r =>
      have hmachines : (Machine.ofRequest w thread r).Alike w.modes
          (Machine.ofRequest w' thread r) := ⟨hw, rfl, .arrive (.some (hrequest r)), .nil⟩
      exact follow_of_alike hmachines hallows
    | poll thread =>
      have hmachines : (Machine.ofPoll w thread).Alike w.modes (Machine.ofPoll w' thread) :=
        ⟨hw, rfl, .arrive .none, .nil⟩
      exact follow_of_alike hmachines hallows
    | newSite mode limit =>
      obtain ⟨hid, hafter⟩ := Twins.newSite hw mode (limit.getD w.options.siteLimit)
        (limit.getD w'.options.siteLimit)
      exact ⟨congrArg Task.Result.site hid, .some hafter.self_modes⟩
    | newObject cls =>
      obtain ⟨hvalue, hafter⟩ := Twins.newObject hw cls
      exact ⟨congrArg Task.Result.value hvalue, .some hafter.self_modes⟩
    | newForeign typeName object =>
      obtain ⟨hvalue, hafter⟩ := Twins.newForeign hw typeName object
      exact ⟨congrArg Task.Result.value hvalue, .some hafter.self_modes⟩
    | clearCache => exact ⟨rfl, .some (Twins.clearCache hw).self_modes⟩
    | safepoints change =>
      have hafter := (Twins.safepoints hw (change w.safepoints)).self_modes
      refine ⟨rfl, .some ?_⟩
      simp only [hw.alike.safepoints]
      exact hafter
  · obtain ⟨hid, hafter⟩ := Twins.newSite hw mode (limit.getD w.options.siteLimit)
      (limit'.getD w'.options.siteLimit)
    exact ⟨congrArg Task.Result.site hid, .some hafter.self_modes⟩

theorem Siblings.record (hw : Siblings w w') {ts ts' : List Task}
    (hts : ts'.map Task.withoutLimit = ts.map Task.withoutLimit) {steps : Nat}
    (hallows : w.AllowsAll steps ts) : w'.record steps ts' = w.record steps ts := by
  induction ts generalizing w w' ts' with
  | nil =>
    obtain rfl := List.map_eq_nil_iff.mp hts
    rfl
  | cons t ts ih =>
    cases ts' with
    | nil => cases hts
    | cons t' ts' =>
      obtain ⟨ht, hrest⟩ := List.cons.inj hts
      obtain ⟨hfirst, hallowsRest⟩ := hallows
      obtain ⟨hresult, hafter⟩ := hw.perform ht hfirst
      simp only [World.record]
      generalize w.perform steps t = performed at hresult hafter hallowsRest
      generalize w'.perform steps t' = performed' at hresult hafter
      obtain ⟨result, next⟩ := performed
      obtain ⟨result', next'⟩ := performed'
      obtain rfl : result' = result := hresult
      cases hafter with
      | none => rfl
      | some hafter =>
        simp only [hafter.alike.face_eq, ih hafter hrest hallowsRest]

/-- Options do not change what a program does, and neither do the limits that it names for its call
sites. -/
theorem record_eq_of_options (options options' : Options) {ts ts' : List Task}
    (hts : ts'.map Task.withoutLimit = ts.map Task.withoutLimit) {steps : Nat}
    (hallows : (start options).AllowsAll steps ts) :
    (start options').record steps ts' = (start options).record steps ts := by
  have hstart : Siblings (start options) (start options') :=
    ⟨alike_start options options', sound_start options, sound_start options', rfl⟩
  exact hstart.record hts hallows

/-- A method that replaces itself and calls itself anew through the site that has called it, with and
without any cache. -/
theorem record_eq_without_caches :
    let receiver : Value := .object ⟨0, ⟨1⟩⟩
    let body : Body := fun inv =>
      .edit (.define ⟨1⟩ ⟨"foo"⟩ .priv (Body.constant (.bool true)) {}) fun _ =>
        .sendVia 0 inv.receiver ⟨"foo"⟩ inv.args .answer
    let tasks (limit : Option Nat) : List Task :=
      [.newSite .privateCall limit, .edit (.define ⟨1⟩ ⟨"foo"⟩ .pub body {}),
        .call ⟨0⟩ ⟨.site 0, receiver, ⟨"foo"⟩, [], none⟩, .lookup ⟨1⟩ ⟨"foo"⟩ .publicCall]
    (start { siteLimit := 0, lookupCache := false }).record 20 (tasks none) =
      (start {}).record 20 (tasks (some 2)) := by
  intro receiver body tasks
  have hlimits : (tasks none).map Task.withoutLimit = (tasks (some 2)).map Task.withoutLimit := rfl
  have hallows : (start {}).AllowsAll 20 (tasks (some 2)) := by decide +kernel
  exact record_eq_of_options {} { siteLimit := 0, lookupCache := false } hlimits hallows

end World

end LateBinding
