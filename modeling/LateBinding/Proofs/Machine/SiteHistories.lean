import LateBinding.Proofs.CallSite.Shape
import LateBinding.Proofs.Machine.Histories
import LateBinding.Proofs.World.Tallies

namespace LateBinding

namespace CallSite

variable {s s' : CallSite Target} {w : World} {r : Request}

theorem Passes.id_mode_limit_eq (hpasses : s.Passes w r s') :
    s'.id = s.id ∧ s'.mode = s.mode ∧ s'.limit = s.limit := by
  cases hpasses with
  | @store _ _ generation =>
    obtain ⟨_, _, heq⟩ := s.countAccess.countMiss.exists_install_eq w.hierarchy.stampOf?
      ⟨w.guard r, w.finding r s.mode, generation⟩
    rw [heq]
    exact ⟨rfl, rfl, rfl⟩
  | _ => exact ⟨rfl, rfl, rfl⟩

/-- An entry was in the memory of the site before, or its target is what a look-up for the call came to. -/
theorem Passes.mem_entries (hpasses : s.Passes w r s') {e : SiteEntry Target}
    (he : e ∈ s'.state.entries) : e ∈ s.state.entries ∨ e.target = w.finding r s.mode := by
  cases hpasses with
  | store => exact (mem_entries_install he).imp_right fun hnew => by rw [hnew]
  | _ => exact .inl he

theorem Passes.isMegamorphic (hpasses : s.Passes w r s') (hmega : s.isMegamorphic = true) :
    s'.isMegamorphic = true := by
  cases hpasses with
  | foreign => exact hmega
  | bypass => exact hmega
  | unknown _ h | hit _ h | miss _ h | store _ h =>
    rw [hmega] at h
    cases h

end CallSite

/-- What a look-up finds and a site keeps is what the mode can lead to. -/
theorem World.admissible_finding {w : World} {r : Request} {mode : Mode}
    (hkept : (w.finding r mode).isKept mode = true) : (w.finding r mode).Admissible mode := by
  rw [finding] at hkept ⊢
  cases hlookup : (w.hierarchy.view (w.guard r).cls (w.guard r).name).lookup mode with
  | found m =>
    obtain ⟨hdefined, hallowed⟩ := Walk.lookup_eq_found_iff.mp hlookup
    exact ⟨(Walk.ofFirst_eq_defined_iff.mp hdefined).2, hallowed⟩
  | _ =>
    rw [hlookup] at hkept
    exact hkept

theorem CallSite.WellFormed.passes {s s' : CallSite Target} {w : World} {r : Request}
    (hs : s.WellFormed) (hsize : s.state.size ≤ s.limit) (hpasses : s.Passes w r s') :
    s'.WellFormed := by
  cases hpasses with
  | store _ hmega hstamp hanswer hkept =>
    have hcounted : s.countAccess.countMiss.WellFormed := hs.of_state_eq rfl rfl rfl
    have hnew := (hcounted.answerFor?_eq_none_iff hstamp).mp hanswer
    exact hcounted.install hmega hsize hnew (World.admissible_finding hkept)
  | _ => exact hs.of_state_eq rfl rfl rfl

namespace World

variable {w : World} {m : Move} {ms : List Move} {r : Request} {id : Nat} {s s' : CallSite Target}

theorem sites_answer (w : World) (q : Query) : (w.answer q).2.sites = w.sites := by
  cases q with
  | findMethod receiver name => exact w.sites_walk (w.effectiveClass receiver) name
  | keepMethod receiver name => exact w.sites_walk (w.effectiveClass receiver) name
  | _ => rfl

/-- What is not a call leaves all call sites alone. -/
theorem site_move_of_ne_decide (hs : w.sites[id]? = some s) (hm : ∀ r, m ≠ .decide r) :
    (w.move m).sites[id]? = some s := by
  cases m with
  | decide r => exact absurd rfl (hm r)
  | ask q => rw [World.move, sites_answer, hs]
  | walk cls name => rw [World.move, sites_walk, hs]
  | newSite mode limit =>
    have hlt := (Array.getElem?_eq_some_iff.mp hs).1
    simp only [World.move, World.newSite, Array.getElem?_push, if_neg (Nat.ne_of_lt hlt), hs]
  | _ => exact hs

/-- A call site stays, and only a call that goes through it changes it. -/
theorem Sound.site_move (hw : w.Sound) (hs : w.sites[id]? = some s) (m : Move) :
    (w.move m).sites[id]? = some s ∧ (∀ r, m = .decide r → r.route ≠ .site id) ∨
      ∃ r s', m = .decide r ∧ r.route = .site id ∧ s.Passes w r s' ∧
        (w.move m).sites[id]? = some s' := by
  cases m with
  | decide r =>
    by_cases hroute : r.route = .site id
    · obtain ⟨s', hpasses, hreplaces⟩ := hw.passes_decide hs hroute
      exact .inr ⟨r, s', rfl, hroute, hpasses, hreplaces.self⟩
    · refine .inl ⟨(hw.numbered.site_decide hroute).trans hs, ?_⟩
      rintro _ ⟨⟩
      exact hroute
  | _ => exact .inl ⟨site_move_of_ne_decide hs (by simp), by simp⟩

/-- A call site was there before, or it is new. -/
theorem Sound.site_before_move (hw : w.Sound) (hs' : (w.move m).sites[id]? = some s') :
    (∃ s, w.sites[id]? = some s) ∨
      w.sites[id]? = none ∧ ∃ mode limit, m = .newSite mode limit ∧ s' = .new id mode limit := by
  cases hs : w.sites[id]? with
  | some s => exact .inl ⟨s, rfl⟩
  | none =>
    refine .inr ⟨rfl, ?_⟩
    cases m with
    | decide r =>
      by_cases hroute : r.route = .site id
      · simp only [World.move, World.decide, hroute, hs] at hs'
        cases hs'
      · rw [World.move, hw.numbered.site_decide hroute, hs] at hs'
        cases hs'
    | ask q =>
      rw [World.move, sites_answer, hs] at hs'
      cases hs'
    | walk cls name =>
      rw [World.move, sites_walk, hs] at hs'
      cases hs'
    | newSite mode limit =>
      simp only [World.move, World.newSite, Array.getElem?_push, hs] at hs'
      split at hs'
      · rename_i hid
        obtain rfl := Option.some.inj hs'
        exact ⟨mode, limit, rfl, by rw [hid]⟩
      · cases hs'
    | _ =>
      have hs₀ : w.sites[id]? = some s' := hs'
      rw [hs] at hs₀
      cases hs₀

theorem sites_start (options : Options) : (start options).sites = #[] :=
  start_induction (P := fun w => w.sites = #[]) (fun _ _ _ _ hw => hw) rfl

theorem numbered_start (options : Options) : (start options).Numbered := by
  intro i s hs
  rw [sites_start] at hs
  cases hs

theorem Numbered.move (hw : w.Numbered) (m : Move) : (w.move m).Numbered := by
  cases m with
  | decide r => exact hw.decide r
  | ask q => exact hw.of_sites_eq (w.sites_answer q)
  | walk cls name => exact hw.of_sites_eq (w.sites_walk cls name)
  | newSite mode limit =>
    intro i s hs
    simp only [World.move, World.newSite, Array.getElem?_push] at hs
    split at hs
    · rename_i hi
      rw [← Option.some.inj hs, hi]
      rfl
    · exact hw i s hs
  | _ => exact hw.of_sites_eq rfl

theorem Numbered.after (hw : w.Numbered) (ms : List Move) : (w.after ms).Numbered := by
  induction ms generalizing w with
  | nil => exact hw
  | cons m ms ih => exact ih (hw.move m)

/-- What holds of new call sites, and lasts when a call goes through a site, holds of all call sites. -/
theorem Reachable.site_induction {P : CallSite Target → Prop} (hw : w.Reachable)
    (hnew : ∀ id mode limit, P (.new id mode limit))
    (hpasses : ∀ {w : World} {id : Nat} {s : CallSite Target} {r : Request} {s' : CallSite Target},
      w.Reachable → w.sites[id]? = some s → s.Passes w r s' → P s → P s')
    (hs : w.sites[id]? = some s) : P s := by
  refine hw.induction_move (P := fun w => ∀ id s, w.sites[id]? = some s → P s)
    (fun options id s hs => ?_) (fun {w m} hw hm ih id s' hs' => ?_) id s hs
  · rw [sites_start] at hs
    cases hs
  · rcases hw.sound.site_before_move hs' with ⟨s, hs⟩ | ⟨-, mode, limit, -, rfl⟩
    · rcases hw.sound.site_move hs m with ⟨hsame, -⟩ | ⟨r, s'', -, -, hthrough, hmade⟩
      · rw [hsame, Option.some.injEq] at hs'
        exact hs' ▸ ih id s hs
      · rw [hmade, Option.some.injEq] at hs'
        exact hs' ▸ hpasses hw hs hthrough (ih id s hs)
    · exact hnew id mode limit

/-- The memory of every call site is in order. -/
theorem Reachable.wellFormed (hw : w.Reachable) (hs : w.sites[id]? = some s) : s.WellFormed :=
  hw.site_induction CallSite.wellFormed_new
    (fun hw hs hpasses hform => hform.passes (hw.sound.site hs).size_le hpasses) hs

/-- A call site stays, in its mode and with its limit, and what has seen too many has done so for good. -/
theorem Sound.exists_site_move (hw : w.Sound) (hs : w.sites[id]? = some s) (m : Move) :
    ∃ s', (w.move m).sites[id]? = some s' ∧ s'.mode = s.mode ∧ s'.limit = s.limit ∧
      (s.isMegamorphic = true → s'.isMegamorphic = true) := by
  rcases hw.site_move hs m with ⟨hsame, -⟩ | ⟨r, s', -, -, hpasses, hs'⟩
  · exact ⟨s, hsame, rfl, rfl, fun hmega => hmega⟩
  · obtain ⟨-, hmode, hlimit⟩ := hpasses.id_mode_limit_eq
    exact ⟨s', hs', hmode, hlimit, hpasses.isMegamorphic⟩

theorem Reachable.exists_site_after (hw : w.Reachable) (hms : w.Supports ms)
    (hs : w.sites[id]? = some s) :
    ∃ s', (w.after ms).sites[id]? = some s' ∧ s'.mode = s.mode ∧ s'.limit = s.limit ∧
      (s.isMegamorphic = true → s'.isMegamorphic = true) := by
  induction ms generalizing w s with
  | nil => exact ⟨s, hs, rfl, rfl, fun hmega => hmega⟩
  | cons m ms ih =>
    obtain ⟨s₁, hs₁, hmode₁, hlimit₁, hmega₁⟩ := hw.sound.exists_site_move hs m
    obtain ⟨s', hs', hmode, hlimit, hmega⟩ := ih (hw.move hms.1) hms.2 hs₁
    exact ⟨s', hs', hmode.trans hmode₁, hlimit.trans hlimit₁, fun h => hmega (hmega₁ h)⟩

theorem eq_hookMissing_of_judge_eq_fail {mode : Mode} {found : Lookup Target} {f : Fault}
    (hfail : w.judge r mode found = .fail f) :
    f = .hookMissing (w.core.describe w.hierarchy r.receiver) r.name := by
  have hmissing (hfail : w.missing r mode = .fail f) :
      f = .hookMissing (w.core.describe w.hierarchy r.receiver) r.name := by
    rw [missing] at hfail
    split at hfail
    · cases hfail
    · split at hfail
      · cases hfail
      · split at hfail
        · cases hfail
        · exact (Decision.fail.inj hfail).symm
  cases found with
  | found m =>
    rw [judge, Request.found] at hfail
    split at hfail <;> cases hfail
  | _ => exact hmissing hfail

/-- A call of an object that lives in the runtime is decided by the hierarchy and the mode of its
route, or the class of the object does not exist, or the site does not. -/
theorem Sound.decide_native (hw : w.Sound) (hnative : r.receiver.isForeign = false) :
    (∃ mode, r.route.mode? w.modes = some mode ∧ (w.decide r).1 = w.verdict r mode) ∨
      (w.decide r).1 = .fail (.unknownClass (w.effectiveClass r.receiver)) ∨
        (w.decide r).1 = .answer .missing := by
  cases hmode : r.route.mode? w.modes with
  | none =>
    rw [decide_of_mode?_eq_none hmode]
    exact .inr (.inr rfl)
  | some mode =>
    by_cases hknown : w.hierarchy.Knows (w.effectiveClass r.receiver)
    · exact .inl ⟨mode, rfl, (hw.decide_settles hmode fun _ => hknown).decision⟩
    · have hstamp : w.hierarchy.stampOf? (w.effectiveClass r.receiver) = none := by
        rw [Hierarchy.stampOf?, Hierarchy.get?_eq_none_iff.mpr hknown, Option.map_none]
      cases hroute : r.route with
      | uncached mode' =>
        rw [hroute, Route.mode?, Option.some.injEq] at hmode
        simp only [World.decide, hroute]
        exact .inl ⟨mode, rfl, hmode ▸ (hw.decideUncached_settles r mode').decision⟩
      | site id =>
        rw [hroute, Route.mode?, getElem?_modes, Option.map_eq_some_iff] at hmode
        obtain ⟨s, hs, rfl⟩ := hmode
        simp only [World.decide, hroute, hs, decideAt_native hnative, hstamp]
        split
        · have haccess : CallSite.KeepsMemory .countAccess := fun _ => ⟨rfl, rfl, rfl, rfl⟩
          have hbypass : CallSite.KeepsMemory .countBypass := fun _ => ⟨rfl, rfl, rfl, rfl⟩
          have hcounted := (hw.count s.id haccess).count s.id hbypass
          have halike := (alike_count w s.id haccess).trans (alike_count _ s.id hbypass)
          have hdecision := (hcounted.decideUncached_settles r s.mode).decision
          rw [halike.verdict_eq] at hdecision
          exact .inl ⟨s.mode, rfl, hdecision⟩
        · exact .inr (.inl rfl)

/-- No call of an object that lives in the runtime is refused because a chain has outgrown its limit. -/
theorem Sound.decide_ne_chainOverLimit (hw : w.Sound) (hnative : r.receiver.isForeign = false)
    (site entries limit : Nat) : (w.decide r).1 ≠ .fail (.chainOverLimit site entries limit) := by
  rcases hw.decide_native hnative with ⟨mode, -, hdecide⟩ | hdecide | hdecide
  · rw [hdecide, verdict_native hnative]
    intro hfail
    cases eq_hookMissing_of_judge_eq_fail hfail
  · rw [hdecide]
    nofun
  · rw [hdecide]
    nofun

/-- A call site of a world is in order. -/
structure SiteInOrder (w : World) (id : Nat) (s : CallSite Target) : Prop where
  size_le : s.state.size ≤ s.limit
  guards_nodup : (s.state.entries.map SiteEntry.guard).Nodup
  kind_eq : s.state.kind = if s.isMegamorphic then .megamorphic else .ofSize s.state.size
  flag_iff : s.isMegamorphic = true ↔ s.state = .megamorphic
  forgets : s.isMegamorphic = true → s.state.entries = []
  /-- Whatever happens, a site that has seen too many stays as it is. -/
  final : s.isMegamorphic = true → ∀ ms, w.Supports ms →
    ∃ s', (w.after ms).sites[id]? = some s' ∧ s'.isMegamorphic = true ∧ s'.state = .megamorphic
  method_target : ∀ e ∈ s.state.entries, ∀ m, e.target = .method m →
    m.isUndefined = false ∧ s.mode.allows m.visibility = true
  notFound_target : ∀ e ∈ s.state.entries, e.target = .notFound → s.mode.isRespondTo = true
  dated : ∀ e ∈ s.state.entries,
    ∃ stamp, w.hierarchy.stampOf? e.guard.cls = some stamp ∧ e.generation ≤ stamp
  accepts : ∀ entry, (w.install id entry).1 = .ok ()
  /-- Nor is a call refused for the length of a chain. -/
  decides : ∀ r : Request, r.receiver.isForeign = false → ∀ site entries limit,
    (w.decide r).1 ≠ .fail (.chainOverLimit site entries limit)

/-- Every call site is in order in every state that a program can bring about, whatever its mode and
its limit are. The states in the middle of a call are among them, so that a method may call through the
site through which it is called. -/
theorem callSite_inOrder (hw : w.Reachable) (hs : w.sites[id]? = some s) : w.SiteInOrder id s := by
  have hform := hw.wellFormed hs
  have hsite := hw.sound.site hs
  have hflag : s.isMegamorphic = true ↔ s.state = .megamorphic := by
    rw [hform.flag_eq, SiteState.isMegamorphic_iff]
  refine ⟨hsite.size_le, hform.guards_nodup, ?_, hflag, hform.entries_eq_nil, fun hmega ms hms => ?_,
    fun e he m hm => ?_, fun e he hn => ?_, fun e he => (hsite.entries e he).stamped,
    fun entry => ?_, fun r hr => hw.sound.decide_ne_chainOverLimit hr⟩
  · split
    · rename_i hmega
      rw [hflag.mp hmega]
      rfl
    · rename_i hnot
      exact hform.kind_eq (by rw [← hform.flag_eq]; simpa using hnot)
  · obtain ⟨s', hs', -, -, hlasts⟩ := hw.exists_site_after hms hs
    have hstate' := hlasts hmega
    rw [((hw.after hms).wellFormed hs').flag_eq, SiteState.isMegamorphic_iff] at hstate'
    exact ⟨s', hs', hlasts hmega, hstate'⟩
  · have hadmissible := hform.admissible e he
    rwa [hm] at hadmissible
  · have hadmissible := hform.admissible e he
    rwa [hn] at hadmissible
  · rw [World.install, hs]
    exact CallSite.install_eq_ok hsite.size_le

/-- A site at its limit, whose entries are all out of date. -/
theorem callSite_inOrder_at_limit :
    let receiver : Value := .object ⟨0, ⟨1⟩⟩
    let call (name : String) : Move := .decide ⟨.site 0, receiver, ⟨name⟩, [], none⟩
    let define (name : String) : Move := .edit (.define ⟨1⟩ ⟨name⟩ .pub (.constant .nil) {})
    let w := (start {}).after
      [define "foo", define "bar", .newSite .publicCall 2, call "foo", call "bar", define "foo"]
    ∃ s, w.sites[0]? = some s ∧ s.state.kind = .polymorphic ∧ s.state.size = s.limit ∧
      s.freshEntries w.hierarchy.stampOf? = [] ∧ w.SiteInOrder 0 s := by
  intro receiver call define w
  have hw : w.Reachable := (Reachable.start {}).after (by decide +kernel)
  have hkind : (w.sites[0]?.map fun s => (s.state.kind, s.state.size == s.limit,
      (s.freshEntries w.hierarchy.stampOf?).isEmpty)) = some (.polymorphic, true, true) := by
    decide +kernel
  obtain ⟨s, hs, hshape⟩ := Option.map_eq_some_iff.mp hkind
  simp only [Prod.mk.injEq, beq_iff_eq, List.isEmpty_iff] at hshape
  exact ⟨s, hs, hshape.1, hshape.2.1, hshape.2.2, callSite_inOrder hw hs⟩

end World

end LateBinding
