import LateBinding.Proofs.World.Verdict

namespace LateBinding

/-- A change of the counters of a call site. -/
def CallSite.KeepsMemory (f : CallSite Target → CallSite Target) : Prop :=
  ∀ s, (f s).id = s.id ∧ (f s).mode = s.mode ∧ (f s).limit = s.limit ∧ (f s).state = s.state

namespace World

variable {w w' : World} {h : Hierarchy Target} {r : Request} {mode : Mode} {d : Decision} {id : Nat}

theorem alike_modifySite (w : World) (id : Nat) {f : CallSite Target → CallSite Target}
    (hf : ∀ s, w.sites[id]? = some s → (f s).mode = s.mode) : w.Alike (w.modifySite id f) := by
  refine { Alike.refl w with modes := Array.ext_getElem? fun i => ?_ }
  simp only [getElem?_modes, modifySite, Array.getElem?_modify]
  split
  · rename_i hid
    subst hid
    cases hs : w.sites[id]? with
    | none => rfl
    | some s => simp only [Option.map_some, hf s hs]
  · rfl

theorem Sound.modifySite (hw : w.Sound) (id : Nat) {f : CallSite Target → CallSite Target}
    (hf : ∀ s, w.sites[id]? = some s → (f s).id = s.id ∧ (f s).Sound w.hierarchy) :
    (w.modifySite id f).Sound := by
  have hsite {i : Nat} {s' : CallSite Target} (hs' : (w.modifySite id f).sites[i]? = some s') :
      s'.id = i ∧ s'.Sound w.hierarchy := by
    simp only [World.modifySite, Array.getElem?_modify] at hs'
    split at hs'
    · rename_i hid
      subst hid
      obtain ⟨s, hs, rfl⟩ := Option.map_eq_some_iff.mp hs'
      obtain ⟨hsame, hsound⟩ := hf s hs
      exact ⟨hsame.trans (hw.site_id hs), hsound⟩
    · exact ⟨hw.site_id hs', hw.site hs'⟩
  exact ⟨hw.hierarchy, hw.core, hw.lookupCache, fun hs => (hsite hs).1, fun hs => (hsite hs).2⟩

theorem Sound.count (hw : w.Sound) (id : Nat) {f : CallSite Target → CallSite Target}
    (hf : CallSite.KeepsMemory f) : (w.modifySite id f).Sound := by
  refine hw.modifySite id fun s hs => ?_
  obtain ⟨hid, hmode, hlimit, hstate⟩ := hf s
  have hsite := hw.site hs
  refine ⟨hid, ?_, fun e he => ?_⟩
  · rw [hstate, hlimit]
    exact hsite.size_le
  · rw [hstate] at he
    rw [hmode]
    exact hsite.entries e he

theorem alike_count (w : World) (id : Nat) {f : CallSite Target → CallSite Target}
    (hf : CallSite.KeepsMemory f) : w.Alike (w.modifySite id f) :=
  alike_modifySite w id fun s _ => (hf s).2.1

/-- An entry that is vouched for can be put into the memory of a call site, and the site never
refuses it. -/
theorem Sound.install_spec (hw : w.Sound) (id : Nat) {entry : SiteEntry Target}
    (hentry : ∀ s, w.sites[id]? = some s →
      w.hierarchy.Vouches entry.guard.cls entry.guard.name entry.generation
        fun walk => entry.target = .ofLookup (walk.lookup s.mode)) :
    (w.install id entry).1 = .ok () ∧ w.Alike (w.install id entry).2 ∧
      (w.install id entry).2.Sound := by
  rw [install]
  split
  · exact ⟨rfl, .refl w, hw⟩
  · rename_i s hs
    have hsite := hw.site hs
    obtain ⟨_, _, heq⟩ := s.exists_install_eq w.hierarchy.stampOf? entry
    have hid : (s.install w.hierarchy.stampOf? entry).2.id = s.id := by rw [heq]
    have hmode : (s.install w.hierarchy.stampOf? entry).2.mode = s.mode := by rw [heq]
    refine ⟨CallSite.install_eq_ok hsite.size_le, alike_modifySite w id fun s' hs' => ?_,
      hw.modifySite id fun s' hs' => ?_⟩
    · rw [hs, Option.some.injEq] at hs'
      rw [← hs', hmode]
    · rw [hs, Option.some.injEq] at hs'
      rw [← hs']
      exact ⟨hid, hsite.install w.hierarchy.stampOf? (hentry s hs)⟩

theorem Sound.installThen_settles (hw : w.Sound) {entry : SiteEntry Target}
    {k : World → Decision × World}
    (hentry : ∀ s, w.sites[id]? = some s →
      w.hierarchy.Vouches entry.guard.cls entry.guard.name entry.generation
        fun walk => entry.target = .ofLookup (walk.lookup s.mode))
    (hk : ∀ w', w.Alike w' → w'.Sound → w.Settles d (k w')) :
    w.Settles d (w.installThen id entry k) := by
  obtain ⟨hok, halike, hsound⟩ := hw.install_spec id hentry
  rw [installThen]
  generalize w.install id entry = installed at hok halike hsound
  obtain ⟨outcome, w'⟩ := installed
  obtain rfl : outcome = .ok () := hok
  exact hk w' halike hsound

/-- What a site is told about a look-up is vouched for by the hierarchy that the look-up leaves. -/
theorem Sound.vouches_lookup (hw : w.Sound) {s s' : CallSite Target} (hs : w.sites[id]? = some s)
    {cls : ClassId} {name : Symbol} {generation : Nat}
    (hg : w.hierarchy.stampOf? cls = some generation) {target : Remembered Target}
    (htarget : target = .ofLookup ((w.hierarchy.view cls name).lookup s.mode))
    (hs' : (w.lookup cls name s.mode).2.sites[id]? = some s') :
    (w.lookup cls name s.mode).2.hierarchy.Vouches cls name generation
      fun walk => target = .ofLookup (walk.lookup s'.mode) := by
  obtain ⟨-, halike, -⟩ := hw.lookup_spec cls name s.mode
  have hmode : s'.mode = s.mode := by
    have hmodes := halike.mode_eq id
    rw [hs', hs] at hmodes
    exact Option.some.inj hmodes
  rw [hmode, halike.hierarchy]
  exact hw.hierarchy.vouches_of_walk hg htarget

/-- Behind the look-up of a call, a judgement about the call is what it was before. -/
theorem Sound.judge_lookup (hw : w.Sound) (r : Request) (mode : Mode) (found : Lookup Target) :
    (w.lookup (w.effectiveClass r.receiver) r.name mode).2.judge r mode found =
      w.judge r mode found := by
  obtain ⟨-, halike, -⟩ := hw.lookup_spec (w.effectiveClass r.receiver) r.name mode
  have hrec := hw.hierarchy.recalls_ancestors (w.effectiveClass r.receiver)
  rw [halike.judge_eq, hw.judge_of_recalls hrec]

/-- A site remembers that there is no method only if that is what it is asked. -/
private theorem Sound.unfound_settles (hw : w.Sound) {g : Guard} {generation : Nat}
    (hkept : (w.hierarchy.ancestors (w.effectiveClass r.receiver)).2 = w.hierarchy)
    (hnote : ∀ s, w.sites[id]? = some s → w.hierarchy.Vouches g.cls g.name generation
      fun walk => Remembered.notFound = .ofLookup (walk.lookup s.mode)) :
    w.Settles (w.missing r mode)
      (if mode.isRespondTo then
        w.installThen id ⟨g, .notFound, generation⟩ fun w => w.decideMissing r mode
      else w.decideMissing r mode) := by
  split
  · refine hw.installThen_settles hnote fun w' hw' hsound' => ?_
    rw [← hw'.missing_eq]
    refine .of_alike hw' (hsound'.decideMissing_settles r mode ?_)
    rw [hw'.effectiveClass_eq, hw'.hierarchy, hkept]
  · exact hw.decideMissing_settles r mode hkept

theorem Sound.decideMiss_settles (hw : w.Sound) {s : CallSite Target}
    (hs : w.sites[id]? = some s) {generation : Nat}
    (hg : w.hierarchy.stampOf? (w.effectiveClass r.receiver) = some generation) :
    { w with
      hierarchy := (w.hierarchy.ancestors (w.effectiveClass r.receiver)).2 }.Settles
        (w.judge r s.mode
          ((w.hierarchy.view (w.effectiveClass r.receiver) r.name).lookup s.mode))
        (w.decideMiss id s.mode ⟨w.effectiveClass r.receiver, r.name⟩ generation r) := by
  obtain ⟨hfound, halike, hsound⟩ :=
    hw.lookup_spec (w.effectiveClass r.receiver) r.name s.mode
  have hkept := hw.ancestors_effectiveClass halike
  have hjudge := hw.judge_lookup r s.mode
  have hnote {target : Remembered Target} (htarget : target = .ofLookup
      ((w.hierarchy.view (w.effectiveClass r.receiver) r.name).lookup s.mode)) (s' : CallSite Target)
      (hs' : (w.lookup (w.effectiveClass r.receiver) r.name s.mode).2.sites[id]? = some s') :=
    hw.vouches_lookup hs hg htarget hs'
  refine .of_alike halike ?_
  rw [decideMiss, ← hfound]
  rw [← hfound] at hnote
  generalize w.lookup (w.effectiveClass r.receiver) r.name s.mode = looked at *
  obtain ⟨found, w₁⟩ := looked
  rw [← hjudge]
  cases found with
  | found m =>
    exact hsound.installThen_settles (hnote rfl) fun w' hw' hsound' => ⟨rfl, hw', hsound'⟩
  | hidden m => exact hsound.unfound_settles hkept (hnote rfl)
  | undefined => exact hsound.unfound_settles hkept (hnote rfl)
  | absent => exact hsound.unfound_settles hkept (hnote rfl)

theorem decideAt_native {s : CallSite Target} (hr : r.receiver.isForeign = false) :
    w.decideAt s r =
      if s.isMegamorphic then
        ((w.modifySite s.id .countAccess).modifySite s.id .countBypass).decideUncached r s.mode
      else
        match w.hierarchy.stampOf? (w.effectiveClass r.receiver) with
        | none => (.fail (.unknownClass (w.effectiveClass r.receiver)),
            w.modifySite s.id .countAccess)
        | some generation =>
          match s.answerFor? ⟨w.effectiveClass r.receiver, r.name⟩ generation with
          | some remembered =>
            ((w.modifySite s.id .countAccess).modifySite s.id .countHit).decideRemembered r s.mode
              remembered
          | none =>
            ((w.modifySite s.id .countAccess).modifySite s.id .countMiss).decideMiss s.id s.mode
              ⟨w.effectiveClass r.receiver, r.name⟩ generation r := by
  obtain ⟨route, receiver, name, args, block⟩ := r
  cases receiver <;> first | rfl | cases hr

/-- A call through a site that exists is decided by the hierarchy alone, if the class of the receiver
exists: what the site remembers is no more than what a look-up would come to. -/
theorem Sound.decideAt_settles (hw : w.Sound) {s : CallSite Target} (hs : w.sites[id]? = some s)
    (hknown : w.hierarchy.Knows (w.effectiveClass r.receiver)) :
    (w.settle r.receiver).Settles (w.verdict r s.mode) (w.decideAt s r) := by
  obtain rfl := hw.site_id hs
  have hkeepAccess : CallSite.KeepsMemory .countAccess := fun _ => ⟨rfl, rfl, rfl, rfl⟩
  have haccess := hw.count s.id hkeepAccess
  have halike := alike_count w s.id hkeepAccess
  cases hr : r.receiver.isForeign with
  | true =>
    obtain ⟨route, receiver, name, args, block⟩ := r
    cases receiver with
    | foreign f => exact ⟨rfl, halike, haccess⟩
    | _ => cases hr
  | false =>
    rw [decideAt_native hr]
    split
    · -- The site has seen too many, and the call is decided afresh.
      have hkeep : CallSite.KeepsMemory .countBypass := fun _ => ⟨rfl, rfl, rfl, rfl⟩
      have hbypass := halike.trans (alike_count _ s.id hkeep)
      have hsettles := (haccess.count s.id hkeep).decideUncached_settles r s.mode
      rw [hbypass.verdict_eq] at hsettles
      exact .of_alike (hbypass.settle _) hsettles
    · obtain ⟨generation, hg⟩ := Hierarchy.stampOf?_of_knows hknown
      simp only [hg]
      rw [verdict_native hr]
      split
      · -- The memory answers, and its answer is what a look-up would come to.
        rename_i remembered hanswer
        obtain ⟨hremembered, hkept⟩ := (hw.site hs).eq_of_answerFor? hg hanswer
        have hkeep : CallSite.KeepsMemory .countHit := fun _ => ⟨rfl, rfl, rfl, rfl⟩
        have hhit := halike.trans (alike_count _ s.id hkeep)
        have hsound := haccess.count s.id hkeep
        have hsettled : w.settle r.receiver = w := by rw [settle_native hr, hkept]
        rw [hsettled, hremembered]
        refine .of_alike hhit ?_
        rw [← hhit.judge_eq]
        cases (w.hierarchy.view (w.effectiveClass r.receiver) r.name).lookup s.mode with
        | found m => exact ⟨rfl, .refl _, hsound⟩
        | _ => exact hsound.decideMissing_settles r s.mode hkept
      · -- The memory does not answer. What the look-up comes to may be put into it.
        have hkeep : CallSite.KeepsMemory .countMiss := fun _ => ⟨rfl, rfl, rfl, rfl⟩
        have hmiss := halike.trans (alike_count _ s.id hkeep)
        have hcounted : ((w.modifySite s.id .countAccess).modifySite s.id .countMiss).sites[s.id]? =
            some s.countAccess.countMiss := by
          simp [World.modifySite, Array.getElem?_modify, hs]
        have hsettles := (haccess.count s.id hkeep).decideMiss_settles (r := r) hcounted hg
        rw [hmiss.judge_eq] at hsettles
        rw [settle_native hr]
        exact .of_alike (hmiss.withHierarchy _) hsettles

end World

/-- The mode in which a call by a route is made, if there is such a site. -/
def Route.mode? (modes : Array Mode) : Route → Option Mode
  | uncached mode => some mode
  | site id => modes[id]?

namespace World

variable {w w' : World} {r : Request} {mode : Mode} {id : Nat}

/-- Every call is decided by the hierarchy and the mode of its route alone, if one through a call site has a
receiver whose class exists. -/
theorem Sound.decide_settles (hw : w.Sound) (hmode : r.route.mode? w.modes = some mode)
    (hknown : r.route.isSite = true → w.hierarchy.Knows (w.effectiveClass r.receiver)) :
    (w.settle r.receiver).Settles (w.verdict r mode) (w.decide r) := by
  cases hroute : r.route with
  | uncached mode' =>
    rw [hroute, Route.mode?, Option.some.injEq] at hmode
    simp only [World.decide, hroute]
    rw [← hmode]
    exact hw.decideUncached_settles r mode'
  | site id =>
    rw [hroute, Route.mode?, getElem?_modes, Option.map_eq_some_iff] at hmode
    obtain ⟨s, hs, rfl⟩ := hmode
    simp only [World.decide, hroute, hs]
    exact hw.decideAt_settles hs (hknown (by rw [hroute]; rfl))

theorem decide_of_mode?_eq_none (hmode : r.route.mode? w.modes = none) :
    w.decide r = (.answer .missing, w) := by
  cases hroute : r.route with
  | uncached mode' =>
    rw [hroute] at hmode
    cases hmode
  | site id =>
    rw [hroute, Route.mode?, getElem?_modes, Option.map_eq_none_iff] at hmode
    simp only [World.decide, hroute, hmode]

/-- Whether or not the class of the receiver exists, deciding a call leaves a sound world. What can be
seen of the world stays the same, except that the ancestors of the receiver's class may have been
asked for. -/
theorem Sound.decide_alike (hw : w.Sound) (r : Request) :
    (w.decide r).2.Sound ∧
      (w.Alike (w.decide r).2 ∨ (w.settle r.receiver).Alike (w.decide r).2) := by
  by_cases hknown : w.hierarchy.Knows (w.effectiveClass r.receiver)
  · cases hmode : r.route.mode? w.modes with
    | none =>
      rw [decide_of_mode?_eq_none hmode]
      exact ⟨hw, .inl (.refl w)⟩
    | some mode =>
      have hsettles := hw.decide_settles hmode fun _ => hknown
      exact ⟨hsettles.sound, .inr hsettles.alike⟩
  · -- The class does not exist: a look-up finds nothing, and a site at most counts the access.
    have hnone : w.hierarchy.stampOf? (w.effectiveClass r.receiver) = none := by
      rw [Hierarchy.stampOf?, Hierarchy.get?_eq_none_iff.mpr hknown, Option.map_none]
    rw [World.decide]
    split
    · rename_i mode hroute
      have hsettles := hw.decideUncached_settles r mode
      exact ⟨hsettles.sound, .inr hsettles.alike⟩
    · split
      · rename_i s hs
        have hkeep : CallSite.KeepsMemory .countAccess := fun _ => ⟨rfl, rfl, rfl, rfl⟩
        have haccess := hw.count s.id hkeep
        have halike := alike_count w s.id hkeep
        cases hr : r.receiver.isForeign with
        | true =>
          obtain ⟨route, receiver, name, args, block⟩ := r
          cases receiver with
          | foreign f => exact ⟨haccess, .inl halike⟩
          | _ => cases hr
        | false =>
          rw [decideAt_native hr]
          split
          · have hbypassed : CallSite.KeepsMemory .countBypass := fun _ => ⟨rfl, rfl, rfl, rfl⟩
            have hbypass := halike.trans (alike_count _ s.id hbypassed)
            have hsettles := (haccess.count s.id hbypassed).decideUncached_settles r s.mode
            exact ⟨hsettles.sound, .inr ((hbypass.settle _).trans hsettles.alike)⟩
          · rw [hnone]
            exact ⟨haccess, .inl halike⟩
      · exact ⟨hw, .inl (.refl w)⟩

theorem Sound.decide (hw : w.Sound) (r : Request) : (w.decide r).2.Sound := (hw.decide_alike r).1

/-- Deciding a call makes the hierarchy remember more at most. -/
theorem Sound.recalls_decide (hw : w.Sound) (r : Request) :
    w.hierarchy.Recalls (w.decide r).2.hierarchy := by
  rcases (hw.decide_alike r).2 with halike | halike
  · rw [halike.hierarchy]
    exact hw.hierarchy.recalls_refl
  · rw [halike.hierarchy, settle]
    split
    · exact hw.hierarchy.recalls_refl
    · exact hw.hierarchy.recalls_ancestors _

end World

end LateBinding
