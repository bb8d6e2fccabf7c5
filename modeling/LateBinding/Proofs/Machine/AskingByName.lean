import LateBinding.Proofs.Machine.MissingMethods

namespace LateBinding

namespace Kernel

theorem respondTo_eq {inv : Invocation} {q : Value} {includeAll : Option Value}
    {name : Symbol} (hargs : inv.args = q :: includeAll.toList) (hname : q.name? = some name) :
    let all := (includeAll.getD .nil).isTruthy
    respondTo inv = .respondsTo inv.receiver name all fun responds =>
      if responds then .answer (.bool true)
      else
        .respondsTo inv.receiver .respondToMissing true fun hooked =>
          if hooked then
            .send inv.receiver .respondToMissing [.symbol name, .bool all] .nothing true
              fun v => .answer (.bool v.isTruthy)
          else .answer (.bool false) := by
  intro all
  have hadmits : (Arity.between 1 2).admits inv.args.length = true := by
    rw [hargs]
    cases includeAll <;> rfl
  have hall : (inv.args.getD 1 .nil).isTruthy = all := by
    rw [hargs]
    cases includeAll <;> rfl
  have hfirst : inv.args.headD .nil = q := by
    rw [hargs]
    rfl
  simp only [respondTo, checkingArity, hadmits, if_true, hfirst, withName, hname, hall]

end Kernel

namespace World

variable {w u : World} {v : Value} {calls : Nat} {r : Request} {m : Method Target}

/-- A value offers a method for a name: one that counts as an answer to it, and that is public, unless all
methods are included. -/
def Offers (w : World) (v : Value) (name : Symbol) (includeAll : Bool) : Prop :=
  ∃ m, (w.walk (w.effectiveClass v) name).1 = .defined m ∧
    (m.visibility = .pub ∨ includeAll = true) ∧ m.isUnimplemented = false

/-- A private method is offered only where all methods are included. -/
theorem not_offers_of_hidden {name : Symbol}
    (hhidden : (w.walk (w.effectiveClass v) name).1.method?.map Method.visibility = some .priv) :
    ¬ w.Offers v name false := by
  rintro ⟨m, hm, hpub | hall, -⟩
  · rw [hm, Walk.method?, Option.map_some, hpub] at hhidden
    cases hhidden
  · cases hall

theorem offers_hook_iff {name : Symbol} : w.Offers v name true ↔
    ∃ hook, (w.findMethod v name).1 = some hook ∧ hook.isUnimplemented = false := by
  have hfind (m : Method Target) : (w.findMethod v name).1 = some m ↔
      (w.walk (w.effectiveClass v) name).1 = .defined m := by
    simp only [findMethod, lookupAny, Walk.lookupAny]
    cases (w.walk (w.effectiveClass v) name).1 <;> simp [Walk.filter, Lookup.method?]
  simp [Offers, hfind]

/-- A script that asks whether the receiver has a method goes on with the answer. -/
theorem Behind.asks (hu : w.Behind v calls u) (hw : w.Sound)
    (hidle : w.safepoints.isIdle = true) (hclass : w.HasClass v) (hnative : v.isForeign = false)
    (name : Symbol) (includePrivate : Bool) (k : Bool → Script) (block : Option Block)
    (thread : ThreadId) (stack : List Waiting) :
    ∃ b u', (⟨u, thread, .run (.respondsTo v name includePrivate k) block, stack⟩ : Machine).Leads
        [.answer (.responds b)] ⟨u', thread, .run (k b) block, stack⟩ ∧
      w.Behind v (calls + 1) u' ∧ (b = true ↔ w.Offers v name includePrivate) := by
  let mode : Mode := if includePrivate then .privateRespond else .publicRespond
  let r : Request := ⟨.uncached mode, v, name, [], none⟩
  have hasks : mode.isRespondTo = true := by cases includePrivate <;> rfl
  have hallows (visibility : Visibility) :
      mode.allows visibility = true ↔ visibility = .pub ∨ includePrivate = true := by
    cases includePrivate <;> cases visibility <;> decide
  obtain ⟨b, hverdict, hb⟩ := hw.verdict_of_ask (r := r) hasks hnative
  obtain ⟨u', hleads, hu'⟩ := hu.call (r := r) hw hidle hclass rfl rfl thread
    (.script (Script.orFail fun d => k d.toBool) block :: stack)
  rw [hverdict] at hleads
  refine ⟨b, u', ?_, hu', hb.trans ?_⟩
  · exact .quiet rfl rfl (hleads.trans (.quiet rfl rfl (.refl _)))
  · simp only [Resolves, lookup, Walk.lookup_eq_found_iff, hallows, Offers, and_assoc]
    rfl

/-- A script that calls the receiver as it may call itself runs the method that the receiver has for the
name, whoever may call it. -/
theorem Behind.sends_found (hu : w.Behind v calls u) (hw : w.Reachable)
    (hidle : w.safepoints.isIdle = true) (hclass : w.HasClass v) (hnative : v.isForeign = false)
    {name : Symbol} (hm : (w.findMethod v name).1 = some m) (args : List Value) (f : Value → Value)
    (block : Option Block) (thread : ThreadId) :
    ∃ t u', m.target = some t ∧ w.Behind v (calls + 1) u' ∧
      (Machine.ofScript u thread (.send v name args .nothing true fun v => .answer (f v)) block).Relays
        [.invoke m v args none] (Except.map fun d => .returned (f d.toValue))
        (.ofScript u' thread (t.body ⟨m.info, v, args, false⟩) none) := by
  have hfound := Lookup.method?_eq_some_iff.mp hm
  obtain ⟨-, t, ht⟩ := hw.canRun_of_walk (Walk.eq_defined_of_filter (.inl hfound))
  have hverdict : w.verdict ⟨.uncached .privateCall, v, name, args, none⟩ .privateCall =
      .invoke m v args none := hw.sound.verdict_of_resolves rfl hnative hfound
  obtain ⟨u', hruns, hu'⟩ := hu.runs hw.sound hidle hclass rfl rfl hverdict ht thread []
  have hsends := Machine.relays_send u thread v name args .nothing true f block
  exact ⟨t, u', ht, hu', hsends.trans hruns.relays⟩

/-- The method that a receiver has for a name runs a body, and counts as an answer to its name. -/
theorem exists_found {name : Symbol} {body : Body}
    (hbody : ((w.findMethod v name).1.bind Method.target).map Target.body = some body)
    (hcounts : (w.findMethod v name).1.map Method.isUnimplemented = some false) :
    ∃ m t, (w.findMethod v name).1 = some m ∧ m.target = some t ∧ t.body = body ∧
      m.isUnimplemented = false := by
  obtain ⟨t, ht, hbody⟩ := Option.map_eq_some_iff.mp hbody
  obtain ⟨m, hm, ht⟩ := Option.bind_eq_some_iff.mp ht
  rw [hm] at hcounts
  exact ⟨m, t, hm, ht, hbody, Option.some.inj hcounts⟩

section

variable (hw : w.Reachable) (hidle : w.safepoints.isIdle = true) (hnative : r.receiver.isForeign = false)
  (hclass : w.HasClass r.receiver) (hruns : w.RunsBody r m Kernel.respondTo) {q : Value}
  {includeAll : Option Value} {name : Symbol} (hargs : r.args = q :: includeAll.toList)
  (hname : q.name? = some name)

include hw hidle hnative hclass hruns hargs hname

/-- Asking by name begins with one question, and comes to true if the receiver offers the name. -/
theorem Reachable.asking_offered (thread : ThreadId)
    (hoffers : w.Offers r.receiver name (includeAll.getD .nil).isTruthy) :
    ∃ u, w.Behind r.receiver 2 u ∧ (Machine.ofRequest w thread r).Ends
      [.invoke m r.receiver r.args r.block, .answer (.responds true)] (.ok (.returned (.bool true))) u := by
  obtain ⟨u₁, hu₁, hbegins⟩ := (hw.sound.behind_refl r.receiver).runs_body hw.sound hidle hclass hnative
    hruns rfl thread
  rw [Kernel.respondTo_eq hargs hname] at hbegins
  obtain ⟨b, u, hasks, hu, hb⟩ :=
    hu₁.asks hw.sound hidle hclass hnative name (includeAll.getD .nil).isTruthy _ r.block thread []
  obtain rfl := hb.mpr hoffers
  exact ⟨u, hu, _, (hbegins.trans hasks).trans (.quiet rfl rfl (.refl _)), rfl⟩

/-- Otherwise it goes on with a second question, which is whether there is a hook that counts. -/
theorem Reachable.asking_on (thread : ThreadId)
    (hnot : ¬ w.Offers r.receiver name (includeAll.getD .nil).isTruthy) :
    let all := (includeAll.getD .nil).isTruthy
    ∃ hooked u, w.Behind r.receiver 3 u ∧ (hooked = true ↔ w.Offers r.receiver .respondToMissing true) ∧
      (Machine.ofRequest w thread r).Leads
        [.invoke m r.receiver r.args r.block, .answer (.responds false), .answer (.responds hooked)]
        (.ofScript u thread
          (if hooked then
            .send r.receiver .respondToMissing [.symbol name, .bool all] .nothing true
              fun v => .answer (.bool v.isTruthy)
          else .answer (.bool false)) r.block) := by
  intro all
  obtain ⟨u₁, hu₁, hbegins⟩ := (hw.sound.behind_refl r.receiver).runs_body hw.sound hidle hclass hnative
    hruns rfl thread
  rw [Kernel.respondTo_eq hargs hname] at hbegins
  obtain ⟨b, u₂, hasks, hu₂, hb⟩ :=
    hu₁.asks hw.sound hidle hclass hnative name all _ r.block thread []
  obtain rfl : b = false := Bool.eq_false_iff.mpr fun hoffers => hnot (hb.mp hoffers)
  have hfirst := hbegins.trans hasks
  simp only [Bool.false_eq_true, if_false] at hfirst
  obtain ⟨hooked, u, hasks', hu, hhooked⟩ :=
    hu₂.asks hw.sound hidle hclass hnative .respondToMissing true _ r.block thread []
  exact ⟨hooked, u, hu, hhooked, hfirst.trans hasks'⟩

/-- A hook that counts is run with the name, and what it returns is taken for true or false. -/
theorem Reachable.asking_hooked (thread : ThreadId)
    (hnot : ¬ w.Offers r.receiver name (includeAll.getD .nil).isTruthy) {hook : Method Target}
    (hhook : (w.findMethod r.receiver .respondToMissing).1 = some hook)
    (hcounts : hook.isUnimplemented = false) :
    let given : List Value := [.symbol name, .bool (includeAll.getD .nil).isTruthy]
    ∃ t u, hook.target = some t ∧ w.Behind r.receiver 4 u ∧ (Machine.ofRequest w thread r).Relays
      [.invoke m r.receiver r.args r.block, .answer (.responds false), .answer (.responds true),
        .invoke hook r.receiver given none]
      (Except.map fun d => .returned (.bool d.toValue.isTruthy))
      (.ofScript u thread (t.body ⟨hook.info, r.receiver, given, false⟩) none) := by
  intro given
  obtain ⟨hooked, u₁, hu₁, hhooked, hleads⟩ :=
    hw.asking_on hidle hnative hclass hruns hargs hname thread hnot
  obtain rfl := hhooked.mpr (offers_hook_iff.mpr ⟨hook, hhook, hcounts⟩)
  obtain ⟨t, u, ht, hu, hrelays⟩ := hu₁.sends_found hw hidle hclass hnative hhook given
    (fun v => .bool v.isTruthy) r.block thread
  exact ⟨t, u, ht, hu, hleads.relays.trans hrelays⟩

end

/-- The methods that a receiver has for two names are different. -/
theorem Reachable.findMethod_ne (hw : w.Reachable) {name other : Symbol} (hother : other ≠ name)
    (hm : (w.findMethod v name).1 = some m) : (w.findMethod v other).1 ≠ some m := by
  have hnamed {name : Symbol} (hm : (w.findMethod v name).1 = some m) : m.name = name :=
    hw.name_eq_of_walk (Walk.eq_defined_of_filter (.inl (Lookup.method?_eq_some_iff.mp hm)))
  exact fun hm' => hother ((hnamed hm').symm.trans (hnamed hm))

/-- In every state that a program can bring about, with nothing to do at the safepoint, and whatever the
route of the call is: a call that runs the kernel's method for asking by name, with a name and perhaps a
value that says whether all methods are included, comes to true if the receiver offers the name, and runs
nothing else. Otherwise it comes to false, and runs nothing else, unless the receiver has a hook that counts,
whoever may call it. Then it runs this hook, once, with the name and the truth of the second argument, and
comes to the truth of what the hook returns, or to the fault with which the hook fails. The hook is the
method for no name but its own, so that the method which was asked for is not run, nor the one for missing
methods, unless the hook itself was asked for. -/
theorem asking_by_name (hw : w.Reachable) (hidle : w.safepoints.isIdle = true)
    (hnative : r.receiver.isForeign = false) (hclass : w.HasClass r.receiver)
    (hruns : w.RunsBody r m Kernel.respondTo) {q : Value} {includeAll : Option Value} {name : Symbol}
    (hargs : r.args = q :: includeAll.toList) (hname : q.name? = some name) (thread : ThreadId) :
    let asking := Machine.ofRequest w thread r
    let begun : Decision := .invoke m r.receiver r.args r.block
    let all := (includeAll.getD .nil).isTruthy
    let responds (b : Bool) : Decision := .answer (.responds b)
    (w.Offers r.receiver name all → ∃ u, w.Behind r.receiver 2 u ∧
      asking.Ends [begun, responds true] (.ok (.returned (.bool true))) u) ∧
    (¬ w.Offers r.receiver name all → ¬ w.Offers r.receiver .respondToMissing true →
      ∃ u, w.Behind r.receiver 3 u ∧
        asking.Ends [begun, responds false, responds false] (.ok (.returned (.bool false))) u) ∧
    (¬ w.Offers r.receiver name all → ∀ hook,
      (w.findMethod r.receiver .respondToMissing).1 = some hook → hook.isUnimplemented = false →
      (∃ t u, hook.target = some t ∧ w.Behind r.receiver 4 u ∧
        asking.Relays [begun, responds false, responds true,
            .invoke hook r.receiver [.symbol name, .bool all] none]
          (Except.map fun d => .returned (.bool d.toValue.isTruthy))
          (.ofScript u thread (t.body ⟨hook.info, r.receiver, [.symbol name, .bool all], false⟩)
            none)) ∧
      ∀ other, other ≠ .respondToMissing → (w.findMethod r.receiver other).1 ≠ some hook) := by
  intro asking begun all responds
  refine ⟨fun hoffers => ?_, fun hnot hnone => ?_, fun hnot hook hhook hcounts => ⟨?_, fun other hother => ?_⟩⟩
  · exact hw.asking_offered hidle hnative hclass hruns hargs hname thread hoffers
  · obtain ⟨hooked, u, hu, hhooked, hleads⟩ :=
      hw.asking_on hidle hnative hclass hruns hargs hname thread hnot
    obtain rfl : hooked = false := Bool.eq_false_iff.mpr fun hoffers => hnone (hhooked.mp hoffers)
    exact ⟨u, hu, _, hleads.trans (.quiet rfl rfl (.refl _)), rfl⟩
  · exact hw.asking_hooked hidle hnative hclass hruns hargs hname thread hnot hhook hcounts
  · exact hw.findMethod_ne hother hhook

/-- A private method is asked for by a text, and the class claims every name. -/
theorem asking_by_name_hooked :
    let receiver : Value := .object ⟨0, ⟨1⟩⟩
    let asked : Value := .text ⟨7, "hidden"⟩
    let call : Request := ⟨.uncached .publicCall, receiver, .respondTo, [asked], none⟩
    let w := (start {}).after
      [.edit (.define ⟨1⟩ ⟨"hidden"⟩ .priv (.constant .nil) {}),
        .edit (.define ⟨1⟩ .respondToMissing .pub (.constant (.symbol ⟨"yes"⟩)) {})]
    ∃ m hook u, ¬ w.Offers receiver ⟨"hidden"⟩ false ∧ (Machine.ofRequest w ⟨0⟩ call).Ends
      [.invoke m receiver [asked] none, .answer (.responds false), .answer (.responds true),
        .invoke hook receiver [.symbol ⟨"hidden"⟩, .bool false] none]
      (.ok (.returned (.bool true))) u := by
  intro receiver asked call w
  have hw : w.Reachable := (Reachable.start {}).after (by decide +kernel)
  have hbody : ((w.lookup (w.effectiveClass receiver) .respondTo .publicCall).1.method?.bind
      Method.target).map Target.body = some Kernel.respondTo := by
    unfold w receiver
    with_unfolding_all rfl
  obtain ⟨m, hruns⟩ : ∃ m, w.RunsBody call m Kernel.respondTo := exists_runsBody rfl rfl hbody
  have hhooked : ((w.findMethod receiver .respondToMissing).1.bind Method.target).map Target.body =
      some (.constant (.symbol ⟨"yes"⟩)) := by
    unfold w receiver
    with_unfolding_all rfl
  have hcounts : (w.findMethod receiver .respondToMissing).1.map Method.isUnimplemented =
      some false := by decide +kernel
  have hhidden : (w.walk (w.effectiveClass receiver) ⟨"hidden"⟩).1.method?.map Method.visibility =
      some .priv := by decide +kernel
  have hidle : w.safepoints.isIdle = true := by decide +kernel
  have hclass : w.HasClass receiver := by decide +kernel
  clear_value w
  obtain ⟨hook, t', hhook, htarget', hhooked, hstub⟩ := exists_found hhooked hcounts
  have hnot : ¬ w.Offers receiver ⟨"hidden"⟩ false := not_offers_of_hidden hhidden
  have hargs : call.args = asked :: (none : Option Value).toList := rfl
  obtain ⟨-, -, hthird⟩ := asking_by_name hw hidle rfl hclass hruns hargs rfl ⟨0⟩
  obtain ⟨⟨t₀, u, ht₀, -, hrelays⟩, -⟩ := hthird hnot hook hhook hstub
  obtain rfl : t₀ = t' := Option.some.inj (ht₀.symm.trans htarget')
  rw [hhooked] at hrelays
  exact ⟨m, hook, u, hnot, hrelays.ends ⟨_, .quiet rfl rfl (.refl _), rfl⟩⟩

/-- A new object is asked for the hook itself. The hook is private, so the object does not offer it, and has
the hook run to find out whether it claims the name. -/
theorem asking_runs_queried_hook :
    let receiver : Value := .object ⟨0, ⟨1⟩⟩
    let asked : Value := .symbol .respondToMissing
    let call : Request := ⟨.uncached .publicCall, receiver, .respondTo, [asked], none⟩
    let w := start {}
    ∃ m queried u, (w.findMethod receiver .respondToMissing).1 = some queried ∧
      (Machine.ofRequest w ⟨0⟩ call).Ends
        [.invoke m receiver [asked] none, .answer (.responds false), .answer (.responds true),
          .invoke queried receiver [asked, .bool false] none]
        (.ok (.returned (.bool false))) u := by
  intro receiver asked call w
  have hw : w.Reachable := .start {}
  have hbody : ((w.lookup (w.effectiveClass receiver) .respondTo .publicCall).1.method?.bind
      Method.target).map Target.body = some Kernel.respondTo := by
    unfold w receiver
    with_unfolding_all rfl
  obtain ⟨m, hruns⟩ : ∃ m, w.RunsBody call m Kernel.respondTo := exists_runsBody rfl rfl hbody
  have hkernel : ((w.findMethod receiver .respondToMissing).1.bind Method.target).map Target.body =
      some Kernel.respondToMissing := by
    unfold w receiver
    with_unfolding_all rfl
  have hcounts : (w.findMethod receiver .respondToMissing).1.map Method.isUnimplemented =
      some false := by decide +kernel
  have hhidden : (w.walk (w.effectiveClass receiver) .respondToMissing).1.method?.map Method.visibility =
      some .priv := by decide +kernel
  have hidle : w.safepoints.isIdle = true := by decide +kernel
  have hclass : w.HasClass receiver := by decide +kernel
  clear_value w
  obtain ⟨queried, t, hqueried, ht, hkernel, hstub⟩ := exists_found hkernel hcounts
  have hargs : call.args = asked :: (none : Option Value).toList := rfl
  obtain ⟨t₀, u, ht₀, -, hrelays⟩ := hw.asking_hooked hidle rfl hclass hruns hargs rfl ⟨0⟩
    (not_offers_of_hidden hhidden) hqueried hstub
  obtain rfl : t₀ = t := Option.some.inj (ht₀.symm.trans ht)
  rw [hkernel] at hrelays
  exact ⟨m, queried, u, hqueried, hrelays.ends ⟨_, .quiet rfl rfl (.refl _), rfl⟩⟩

end World

end LateBinding
