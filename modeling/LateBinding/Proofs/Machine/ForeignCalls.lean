import LateBinding.Proofs.Machine.Courses
import LateBinding.Proofs.Machine.Histories

namespace LateBinding

/-- A call gets as far as the member: it does not only ask, and if it wants to be told that there is no
member, then there is one. -/
structure ForeignObject.Runs (object : ForeignObject) (name : Symbol) (mode : Mode) : Prop where
  calls : mode.isRespondTo = false
  member : mode.returnsMissing = true → object.hasMember name.text = true

/-- What a call of a foreign object comes to, by what the object says of the member and by what calling the
member comes to. Whatever goes wrong in the embedding program is a type fault that names the type and the
member. -/
inductive ForeignObject.Answers (object : ForeignObject) (f : ForeignRef) (name : Symbol)
    (args : List Value) (mode : Mode) : Except Fault Dispatched → Prop where
  | responds (hasks : mode.isRespondTo = true) :
    Answers object f name args mode (.ok (.responds (object.hasMember name.text)))
  | missing (hcalls : mode.isRespondTo = false) (htells : mode.returnsMissing = true)
    (hnone : object.hasMember name.text = false) : Answers object f name args mode (.ok .missing)
  | returned (hruns : object.Runs name mode) {v : Value}
    (hinvoke : object.invoke name.text args = .returned v) :
    Answers object f name args mode (.ok (.returned v))
  | failed (hruns : object.Runs name mode) {cause : ForeignFault}
    (hinvoke : object.invoke name.text args = .failed cause) {fault : Fault} (hkind : fault.kind = .type)
    (hmessage : fault.message = s!"foreign call {f.typeName}.{name.text} failed: {cause.message}") :
    Answers object f name args mode (.error fault)
  | aborted (hruns : object.Runs name mode) (hinvoke : object.invoke name.text args = .aborted)
    {fault : Fault} (hkind : fault.kind = .type)
    (hmessage : fault.message = s!"foreign call {f.typeName}.{name.text} aborted in host") :
    Answers object f name args mode (.error fault)

variable {object : ForeignObject} {f : ForeignRef} {name : Symbol} {args : List Value} {mode : Mode}

theorem ForeignObject.Runs.dispatch_eq (hruns : object.Runs name mode) :
    object.dispatch f name args mode = (object.invoke name.text args).report f name := by
  have hgoesOn : (mode.returnsMissing && !object.hasMember name.text) = false := by
    cases htells : mode.returnsMissing with
    | false => rfl
    | true => simp [hruns.member htells]
  simp [dispatch, hruns.calls, hgoesOn]

/-- Every call is answered. -/
theorem ForeignObject.answers_dispatch (object : ForeignObject) (f : ForeignRef) (name : Symbol)
    (args : List Value) (mode : Mode) :
    object.Answers f name args mode (object.dispatch f name args mode) := by
  cases hcalls : mode.isRespondTo with
  | true =>
    rw [dispatch_respondTo hcalls]
    exact .responds hcalls
  | false =>
    by_cases htold : mode.returnsMissing = true ∧ object.hasMember name.text = false
    · obtain ⟨htells, hnone⟩ := htold
      have hmissing : object.dispatch f name args mode = .ok .missing := by
        simp [dispatch, hcalls, htells, hnone]
      rw [hmissing]
      exact .missing hcalls htells hnone
    · have hruns : object.Runs name mode :=
        ⟨hcalls, fun htells => eq_true_of_ne_false fun hnone => htold ⟨htells, hnone⟩⟩
      rw [hruns.dispatch_eq]
      cases hinvoke : object.invoke name.text args with
      | returned v => exact .returned hruns hinvoke
      | failed cause => exact .failed hruns hinvoke rfl rfl
      | aborted => exact .aborted hruns hinvoke rfl rfl

namespace World

/-- A request calls a member of a foreign object in a given mode. -/
structure CallsForeign (w : World) (r : Request) (object : ForeignObject) (f : ForeignRef) (name : Symbol)
    (args : List Value) (mode : Mode) : Prop where
  receiver_eq : r.receiver = .foreign f
  name_eq : r.name = name
  args_eq : r.args = args
  mode_eq : r.route.mode? w.modes = some mode
  object_eq : w.foreignObject f = object

/-- Counts a call by its route: as an access to its site, or as one more call that looked for its method
afresh. -/
def countCall (w : World) : Route → World
  | .uncached _ => { w with dispatches := w.dispatches + 1 }
  | .site id => w.modifySite id .countAccess

/-- Everything that classes and calls have put together is as it was: the hierarchy, what is remembered of
look-ups, and of the call sites all but the number of accesses. -/
structure KeepsMemories (w u : World) : Prop where
  hierarchy_eq : u.hierarchy = w.hierarchy
  lookupCache_eq : u.lookupCache = w.lookupCache
  site : ∀ {id : Nat} {s : CallSite Target}, w.sites[id]? = some s →
    ∃ accesses, u.sites[id]? = some { s with accesses }

variable {w : World} {r : Request}

theorem keepsMemories_countCall (w : World) (safepoints : Safepoints Script) (route : Route) :
    w.KeepsMemories ({ w with safepoints }.countCall route) := by
  cases route with
  | uncached mode => exact ⟨rfl, rfl, fun {id s} hs => ⟨s.accesses, hs⟩⟩
  | site id =>
    refine ⟨rfl, rfl, fun {id' s} hs => ?_⟩
    simp only [countCall, modifySite, Array.getElem?_modify, hs]
    split
    · exact ⟨s.accesses + 1, rfl⟩
    · exact ⟨s.accesses, rfl⟩

/-- A call of a foreign object is decided by the object alone, in whatever state its site is. -/
theorem Sound.decide_of_callsForeign (hw : w.Sound) (hcalls : w.CallsForeign r object f name args mode) :
    w.decide r = (.ofOutcome (object.dispatch f name args mode), w.countCall r.route) := by
  obtain ⟨route, receiver, name', args', block⟩ := r
  obtain ⟨rfl, rfl, rfl, hmode, rfl⟩ := hcalls
  cases route with
  | uncached mode' =>
    obtain rfl := Option.some.inj hmode
    rfl
  | site id =>
    simp only [Route.mode?, getElem?_modes, Option.map_eq_some_iff] at hmode
    obtain ⟨s, hs, rfl⟩ := hmode
    obtain rfl := hw.site_id hs
    simp only [World.decide, hs]
    rfl

/-- Calls leave foreign objects alone. -/
theorem Sound.foreignObject_decide (hw : w.Sound) (r : Request) (f : ForeignRef) :
    (w.decide r).2.foreignObject f = w.foreignObject f := by
  have hsettle : (w.settle r.receiver).foreigns = w.foreigns := by
    rw [settle]
    split <;> rfl
  rcases (hw.decide_alike r).2 with halike | halike
  · rw [foreignObject, foreignObject, halike.foreigns]
  · rw [foreignObject, foreignObject, halike.foreigns, hsettle]

/-- For every foreign object, name, arguments and mode there is one outcome, which is what the object answers,
to which the call comes in every state that a program can bring about, by every route: through a site in any
state, or without one. There must be nothing to do at the safepoint. On its way the call runs no method, and
behind it the world is as before, but for the poll and the count of the call; so the chain and the state of a
site, its other counters, the cache for look-ups and the hierarchy are as they were. -/
theorem foreign_call (object : ForeignObject) (f : ForeignRef) (name : Symbol) (args : List Value)
    (mode : Mode) :
    ∃ outcome, object.Answers f name args mode outcome ∧
      ∀ {w : World} {r : Request}, w.Reachable → w.safepoints.isIdle = true →
        w.CallsForeign r object f name args mode → ∀ thread,
          let after := { w with safepoints := w.safepoints.passed }.countCall r.route
          (Machine.ofRequest w thread r).Ends [.ofOutcome outcome] outcome after ∧
            w.KeepsMemories after := by
  refine ⟨_, object.answers_dispatch f name args mode, fun {w r} hw hidle hcalls thread => ?_⟩
  let passed : World := { w with safepoints := w.safepoints.passed }
  have hpassed : passed.CallsForeign r object f name args mode := { hcalls with }
  have hdecide := (hw.safepoints w.safepoints.passed).sound.decide_of_callsForeign hpassed
  have hends := Machine.ends_of_decide hidle thread (congrArg Prod.fst hdecide)
  rw [hdecide] at hends
  exact ⟨hends, w.keepsMemories_countCall _ r.route⟩

/-- A member that fails, called without a site in a fresh world, and through a site that has given up
remembering in a world where the marker class has a method of this name and a hook of its own. -/
theorem foreign_call_among_methods :
    let object : ForeignObject := ⟨fun name => name == "size", fun _ _ => .failed (.host "gone")⟩
    let f : ForeignRef := ⟨(start {}).serial, "HostMap"⟩
    let define (name : Symbol) : Move := .edit (.define ⟨12⟩ name .pub (.constant .nil) {})
    let plain := (start {}).after [.newForeign "HostMap" object]
    let busy := plain.after [define ⟨"size"⟩, define .methodMissing, .newSite .publicCall 0]
    let crowded := busy.move (.decide ⟨.site 0, .nil, ⟨"class"⟩, [], none⟩)
    let direct : Request := ⟨.uncached .publicCall, .foreign f, ⟨"size"⟩, [], none⟩
    let cached : Request := ⟨.site 0, .foreign f, ⟨"size"⟩, [], none⟩
    (crowded.sites[0]?.map CallSite.isMegamorphic) = some true ∧ ∃ fault u u',
      fault.kind = .type ∧ fault.message = "foreign call HostMap.size failed: gone" ∧
        (Machine.ofRequest plain ⟨0⟩ direct).Ends [.fail fault] (.error fault) u ∧
        (Machine.ofRequest crowded ⟨0⟩ cached).Ends [.fail fault] (.error fault) u' ∧
        crowded.KeepsMemories u' := by
  intro object f define plain busy crowded direct cached
  have hplain : plain.Reachable := (Reachable.start {}).after (by decide +kernel)
  have hbusy : busy.Reachable := hplain.after (by decide +kernel)
  have hcrowded : crowded.Reachable := hbusy.decide _
  have hidle : plain.safepoints.isIdle = true := by decide +kernel
  have hidle' : crowded.safepoints.isIdle = true := by decide +kernel
  have hmegamorphic : (crowded.sites[0]?.map CallSite.isMegamorphic) = some true := by decide +kernel
  have hmode : cached.route.mode? crowded.modes = some .publicCall := by decide +kernel
  have hobject : plain.foreignObject f = object := by
    unfold plain f
    with_unfolding_all rfl
  have hobject' : crowded.foreignObject f = object := by
    have hdefine (w : World) (name : Symbol) :
        (w.move (define name)).foreignObject f = w.foreignObject f := rfl
    have hsite (w : World) : (w.move (.newSite .publicCall 0)).foreignObject f = w.foreignObject f := rfl
    have hbefore : busy.foreignObject f = object := by
      simp only [busy, after_cons, after_nil, hsite, hdefine, hobject]
    exact (hbusy.sound.foreignObject_decide _ f).trans hbefore
  clear_value plain busy crowded
  obtain ⟨outcome, hanswers, hends⟩ := foreign_call object f ⟨"size"⟩ [] .publicCall
  cases hanswers with
  | failed hruns hinvoke hkind hmessage =>
    obtain rfl := ForeignOutcome.failed.inj hinvoke
    obtain ⟨hdirect, -⟩ := hends (r := direct) hplain hidle ⟨rfl, rfl, rfl, rfl, hobject⟩ ⟨0⟩
    obtain ⟨hcached, hkeeps⟩ := hends (r := cached) hcrowded hidle' ⟨rfl, rfl, rfl, hmode, hobject'⟩ ⟨0⟩
    exact ⟨hmegamorphic, _, _, _, hkind, hmessage, hdirect, hcached, hkeeps⟩
  | responds hasks => cases hasks
  | missing _ htells => cases htells
  | returned _ hinvoke => cases hinvoke
  | aborted _ hinvoke => cases hinvoke

end World

end LateBinding
