import LateBinding.Proofs.Hierarchy.Tables
import LateBinding.Proofs.Machine.Options
import LateBinding.Proofs.Machine.SiteHistories
import LateBinding.Proofs.World.Counts

namespace LateBinding

namespace World

/-- The stamp of a class stays the same all along a history. -/
def KeepsStamp (cls : ClassId) : World → List Move → Prop
  | _, [] => True
  | w, m :: ms =>
    (w.move m).hierarchy.stampOf? cls = w.hierarchy.stampOf? cls ∧ (w.move m).KeepsStamp cls ms

/-- Since the stamp of its class has last changed, a call has made an entry for a guard in the memory
of a call site. -/
def Warm (w : World) (ms : List Move) (id : Nat) (g : Guard) : Prop :=
  ∃ earlier r later, ms = earlier ++ .decide r :: later ∧ (w.after earlier).Installs id g r ∧
    KeepsStamp g.cls (w.after earlier) (.decide r :: later)

/-- A call makes an entry for which the call site has no room among the entries that are up to date. -/
def Overfills (w : World) (id : Nat) (r : Request) : Prop :=
  w.Installs id (w.guard r) r ∧
    ∃ s, w.sites[id]? = some s ∧ (s.freshEntries w.hierarchy.stampOf?).length = s.limit

variable {w : World} {m : Move} {ms ms' : List Move} {r : Request} {id : Nat} {g : Guard}
  {cls : ClassId} {s s' : CallSite Target} {generation : Nat}

theorem keepsStamp_append :
    KeepsStamp cls w (ms ++ ms') ↔ KeepsStamp cls w ms ∧ KeepsStamp cls (w.after ms) ms' := by
  induction ms generalizing w with
  | nil => simp [KeepsStamp]
  | cons m ms ih => simp only [List.cons_append, KeepsStamp, ih, after_cons, and_assoc]

theorem Sound.stampOf?_decide (hw : w.Sound) (r : Request) :
    (w.decide r).2.hierarchy.stampOf? = w.hierarchy.stampOf? :=
  funext fun id => Hierarchy.stampOf?_of_forget_eq (hw.recalls_decide r).forget_eq id

/-- What has been warm stays so while the stamp does, and a call that makes an entry warms the site. -/
theorem warm_concat (hafter : (w.after ms).Sound) :
    w.Warm (ms ++ [m]) id g ↔
      w.Warm ms id g ∧
          (w.after (ms ++ [m])).hierarchy.stampOf? g.cls = (w.after ms).hierarchy.stampOf? g.cls ∨
        ∃ r, m = .decide r ∧ (w.after ms).Installs id g r := by
  rw [after_concat]
  constructor
  · rintro ⟨earlier, r, later, hms, hinstalls, hkeeps⟩
    rcases List.eq_nil_or_concat later with rfl | ⟨later, m', rfl⟩
    · obtain ⟨rfl, hm⟩ := List.append_inj' hms rfl
      exact .inr ⟨r, by simpa using hm, hinstalls⟩
    · rw [List.concat_eq_append, ← List.cons_append, ← List.append_assoc] at hms
      obtain ⟨rfl, hm⟩ := List.append_inj' hms rfl
      obtain rfl : m = m' := by simpa using hm
      rw [List.concat_eq_append, ← List.cons_append, keepsStamp_append] at hkeeps
      refine .inl ⟨⟨earlier, r, later, rfl, hinstalls, hkeeps.1⟩, ?_⟩
      rw [after_append]
      exact hkeeps.2.1
  · rintro (⟨⟨earlier, r, later, rfl, hinstalls, hkeeps⟩, hstamp⟩ | ⟨r, rfl, hinstalls⟩)
    · refine ⟨earlier, r, later ++ [m], by simp, hinstalls, ?_⟩
      rw [← List.cons_append, keepsStamp_append]
      rw [after_append] at hstamp
      exact ⟨hkeeps, hstamp, trivial⟩
    · exact ⟨ms, r, [], rfl, hinstalls, congrFun (hafter.stampOf?_decide r) g.cls, trivial⟩

/-- A call that goes through a site without making an entry leaves its chain alone. -/
theorem Reachable.entries_of_not_installs (hw : w.Reachable) (hs : w.sites[id]? = some s)
    (hpasses : s.Passes w r s') (hroute : r.route = .site id)
    (hnot : ¬ w.Installs id (w.guard r) r) :
    s'.state = s.state ∧ s'.isMegamorphic = s.isMegamorphic := by
  rcases asks_or_of_passes hs hroute hpasses with ⟨generation, hasks⟩ | ⟨hstate, hmega, -⟩
  · rcases hasks.passes_cases hpasses with ⟨-, rfl⟩ | ⟨hnone, ⟨-, rfl⟩ | ⟨hkept, -⟩⟩
    · exact ⟨rfl, rfl⟩
    · exact ⟨rfl, rfl⟩
    · exact absurd ((hw.sound.installs_iff hasks).mpr ⟨rfl, hnone, hkept⟩) hnot
  · exact ⟨hstate, hmega⟩

/-- A call that makes an entry adds it to those that are fresh, unless there is no room for it. -/
theorem Reachable.install_of_installs (hw : w.Reachable) (hs : w.sites[id]? = some s)
    (hpasses : s.Passes w r s') (hinstalls : w.Installs id g r) :
    (s'.isMegamorphic = true ↔ (s.freshEntries w.hierarchy.stampOf?).length = s.limit) ∧
      (s'.isMegamorphic = false → ∃ entry, entry.guard = g ∧
        ∀ e, e ∈ s'.freshEntries w.hierarchy.stampOf? ↔
          e ∈ s.freshEntries w.hierarchy.stampOf? ∨ e = entry) := by
  obtain ⟨s₀, generation, hasks⟩ := hw.sound.asks_of_installs hinstalls
  obtain rfl : s₀ = s := Option.some.inj (hasks.site.symm.trans hs)
  obtain ⟨rfl, hnone, hkept⟩ := (hw.sound.installs_iff hasks).mp hinstalls
  have hform : s₀.countAccess.countMiss.WellFormed := (hw.wellFormed hs).of_state_eq rfl rfl rfl
  have hnew := (hform.answerFor?_eq_none_iff hasks.stamp).mp hnone
  have hsize : s₀.countAccess.countMiss.state.size ≤ s₀.countAccess.countMiss.limit :=
    (hw.sound.site hs).size_le
  rcases hasks.passes_cases hpasses with ⟨⟨remembered, hsome⟩, -⟩ | ⟨-, ⟨hnot, -⟩ | ⟨-, rfl⟩⟩
  · rw [hnone] at hsome
    cases hsome
  · rw [hkept] at hnot
    cases hnot
  · refine ⟨hform.isMegamorphic_install_iff hasks.notMegamorphic hsize hnew, fun hroom => ?_⟩
    exact ⟨⟨w.guard r, w.finding r s₀.mode, generation⟩, rfl, fun e =>
      hform.mem_freshEntries_install hasks.notMegamorphic hsize hnew hasks.stamp hroom⟩

/-- An entry that is fresh behind a move was so before it, or the move has made it. -/
theorem Reachable.fresh_move (hw : w.Reachable) (hm : w.AdmitsMove m) (hs : w.sites[id]? = some s)
    (hs' : (w.move m).sites[id]? = some s') (hopen' : s'.isMegamorphic = false) :
    (∃ e ∈ s'.freshEntries (w.move m).hierarchy.stampOf?, e.guard = g) ↔
      (∃ e ∈ s.freshEntries w.hierarchy.stampOf?, e.guard = g) ∧
          (w.move m).hierarchy.stampOf? g.cls = w.hierarchy.stampOf? g.cls ∨
        ∃ r, m = .decide r ∧ w.Installs id g r := by
  -- A stamp that an entry is ahead of does not come.
  have hkept (hstate : s'.state = s.state) :
      (∃ e ∈ s'.freshEntries (w.move m).hierarchy.stampOf?, e.guard = g) ↔
        (∃ e ∈ s.freshEntries w.hierarchy.stampOf?, e.guard = g) ∧
          (w.move m).hierarchy.stampOf? g.cls = w.hierarchy.stampOf? g.cls := by
    simp only [CallSite.mem_freshEntries, hstate]
    constructor
    · rintro ⟨e, ⟨he, hfresh⟩, rfl⟩
      obtain ⟨stamp, hstamp, hdated⟩ := ((hw.sound.site hs).entries e he).stamped
      have hgrows := (hw.sound.evolves_move hm).stamp_le hstamp hfresh
      obtain rfl : stamp = e.generation := by omega
      exact ⟨⟨e, ⟨he, hstamp⟩, rfl⟩, hfresh.trans hstamp.symm⟩
    · rintro ⟨⟨e, ⟨he, hfresh⟩, rfl⟩, hsame⟩
      exact ⟨e, ⟨he, hsame.trans hfresh⟩, rfl⟩
  rcases hw.sound.site_move hs m with ⟨hsame, hpast⟩ | ⟨r, s₁, rfl, hroute, hpasses, hs₁⟩
  · obtain rfl : s' = s := Option.some.inj (hs'.symm.trans hsame)
    rw [hkept rfl, or_iff_left]
    rintro ⟨r, rfl, hinstalls⟩
    obtain ⟨s₀, generation, hasks⟩ := hw.sound.asks_of_installs hinstalls
    exact hpast r rfl hasks.route
  · obtain rfl : s₁ = s' := Option.some.inj (hs₁.symm.trans hs')
    by_cases hinstalls : w.Installs id (w.guard r) r
    · obtain ⟨entry, hguard, hmem⟩ := (hw.install_of_installs hs hpasses hinstalls).2 hopen'
      have hstamps : (w.move (.decide r)).hierarchy.stampOf? = w.hierarchy.stampOf? :=
        hw.sound.stampOf?_decide r
      simp only [hstamps, and_true, hmem]
      constructor
      · rintro ⟨e, he | rfl, rfl⟩
        · exact .inl ⟨e, he, rfl⟩
        · exact .inr ⟨r, rfl, hguard ▸ hinstalls⟩
      · rintro (⟨e, he, rfl⟩ | ⟨r', hr', hinstalls'⟩)
        · exact ⟨e, .inl he, rfl⟩
        · obtain rfl := Move.decide.inj hr'
          exact ⟨entry, .inr rfl, hguard.trans hinstalls'.guard_eq⟩
    · obtain ⟨hstate, -⟩ := hw.entries_of_not_installs hs hpasses hroute hinstalls
      rw [hkept hstate, or_iff_left]
      rintro ⟨r', hr', hinstalls'⟩
      obtain rfl := Move.decide.inj hr'
      exact hinstalls (hinstalls'.guard_eq ▸ hinstalls')

/-- A site comes to see too many by a call that makes an entry for which there is no room, and by
nothing else. -/
theorem Reachable.megamorphic_move_iff (hw : w.Reachable) (hs : w.sites[id]? = some s)
    (hs' : (w.move m).sites[id]? = some s') (hopen : s.isMegamorphic = false) :
    s'.isMegamorphic = true ↔ ∃ r, m = .decide r ∧ w.Overfills id r := by
  rcases hw.sound.site_move hs m with ⟨hsame, hpast⟩ | ⟨r, s₁, rfl, hroute, hpasses, hs₁⟩
  · obtain rfl : s' = s := Option.some.inj (hs'.symm.trans hsame)
    refine iff_of_false (by simp [hopen]) ?_
    rintro ⟨r, rfl, hinstalls, -⟩
    obtain ⟨s₀, generation, hasks⟩ := hw.sound.asks_of_installs hinstalls
    exact hpast r rfl hasks.route
  · obtain rfl : s₁ = s' := Option.some.inj (hs₁.symm.trans hs')
    by_cases hinstalls : w.Installs id (w.guard r) r
    · rw [(hw.install_of_installs hs hpasses hinstalls).1]
      constructor
      · exact fun hfull => ⟨r, rfl, hinstalls, s, hs, hfull⟩
      · rintro ⟨r', hr', -, s₀, hs₀, hfull⟩
        obtain rfl : s₀ = s := Option.some.inj (hs₀.symm.trans hs)
        exact hfull
    · obtain ⟨-, hmega⟩ := hw.entries_of_not_installs hs hpasses hroute hinstalls
      refine iff_of_false (by simp [hmega, hopen]) ?_
      rintro ⟨r', hr', hinstalls', -⟩
      obtain rfl := Move.decide.inj hr'
      exact hinstalls hinstalls'

/-- As long as a site has not seen too many, it has a fresh entry exactly where it is warm. -/
theorem fresh_iff_warm {options : Options} (hms : (start options).Supports ms)
    (hs : ((start options).after ms).sites[id]? = some s) (hopen : s.isMegamorphic = false)
    (g : Guard) :
    (∃ e ∈ s.freshEntries ((start options).after ms).hierarchy.stampOf?, e.guard = g) ↔
      (start options).Warm ms id g := by
  -- The induction is on the history, from its end: each move changes both sides in the same way.
  induction ms using List.reverseRecOn generalizing s with
  | nil =>
    rw [after_nil, sites_start] at hs
    cases hs
  | append_singleton ms m ih =>
    obtain ⟨hpast, hm⟩ := supports_concat.mp hms
    have hw := (Reachable.start options).after hpast
    rw [warm_concat hw.sound]
    rw [after_concat] at hs ⊢
    rcases hw.sound.site_before_move hs with ⟨s₀, hs₀⟩ | ⟨hnone, mode, limit, rfl, rfl⟩
    · have hopen₀ : s₀.isMegamorphic = false := by
        by_contra hmega
        obtain ⟨s', hs', -, -, hlasts⟩ := hw.sound.exists_site_move hs₀ m
        obtain rfl : s' = s := Option.some.inj (hs'.symm.trans hs)
        have hmega' := hlasts (by simpa using hmega)
        rw [hopen] at hmega'
        cases hmega'
      rw [hw.fresh_move hm hs₀ hs hopen, ih hpast hs₀ hopen₀]
    · -- A new site knows nothing, and no call has gone through it yet.
      refine iff_of_false (by rintro ⟨e, he, -⟩; cases he) ?_
      rintro (⟨⟨earlier, r, later, rfl, hinstalls, -⟩, -⟩ | ⟨r, hr, -⟩)
      · obtain ⟨hearlier, hlater⟩ := supports_append.mp hpast
        have hw₀ := (Reachable.start options).after hearlier
        obtain ⟨s₀, generation, hasks⟩ := hw₀.sound.asks_of_installs hinstalls
        obtain ⟨s', hs', -⟩ := hw₀.exists_site_after hlater hasks.site
        rw [← after_append, hnone] at hs'
        cases hs'
      · cases hr

/-- A site that has not seen too many has had room for every entry so far. -/
theorem Reachable.not_overfills_of_open (hw : w.Reachable) {earlier later : List Move}
    (hms : w.Supports (earlier ++ .decide r :: later))
    (hs : (w.after (earlier ++ .decide r :: later)).sites[id]? = some s)
    (hopen : s.isMegamorphic = false) : ¬ (w.after earlier).Overfills id r := by
  rintro hoverfills
  obtain ⟨hearlier, hdecide, hlater⟩ := supports_append.mp hms
  have hw₀ := hw.after hearlier
  obtain ⟨s₀, generation, hasks⟩ := hw₀.sound.asks_of_installs hoverfills.1
  obtain ⟨s₁, hs₁, -⟩ := hw₀.sound.exists_site_move hasks.site (.decide r)
  have hmega := (hw₀.megamorphic_move_iff hasks.site hs₁ hasks.notMegamorphic).mpr
    ⟨r, rfl, hoverfills⟩
  obtain ⟨s', hs', -, -, hlasts⟩ := (hw₀.move hdecide).exists_site_after hlater hs₁
  rw [after_append, after_cons] at hs
  obtain rfl : s' = s := Option.some.inj (hs'.symm.trans hs)
  rw [hlasts hmega] at hopen
  cases hopen

/-- A request about the method table of a record that is not among the ancestors of the receiver's class
leaves alone what a call is asked about. -/
theorem Reachable.asks_edit (hw : w.Reachable) (hasks : w.Asks id r s generation) {e : Edit Body}
    {owner : ClassId} (he : e.table? = some owner)
    (hbeside : owner ∉ (w.hierarchy.ancestors (w.guard r).cls).1) :
    (w.edit e).2.Asks id r s generation ∧ (w.edit e).2.guard r = w.guard r ∧
      ((w.edit e).2.hierarchy.ancestors (w.guard r).cls).1 =
        (w.hierarchy.ancestors (w.guard r).cls).1 := by
  have htable : (e.map (Target.mk w.serial)).table? = some owner := by rw [Edit.table?_map, he]
  have hsame := hw.sound.hierarchy.sameBeside_apply htable
  have hlater : (w.edit e).2.hierarchy.Sound := (hw.sound.evolves_edit (by cases e <;> trivial)).sound
  have hguard : (w.edit e).2.guard r = w.guard r := by
    have hclass : (w.edit e).2.effectiveClass r.receiver = w.effectiveClass r.receiver :=
      CoreClasses.effectiveClass_of_sameKin hsame.kin r.receiver
    rw [guard, guard, hclass]
  rw [hw.sound.hierarchy.ancestors_fst] at hbeside ⊢
  rw [hlater.ancestors_fst]
  refine ⟨⟨hasks.route, hasks.site, hasks.native, hasks.notMegamorphic, ?_⟩, hguard,
    hsame.linearize_eq _⟩
  rw [hguard, ← hasks.stamp]
  exact hsame.stamp_eq (Hierarchy.knows_of_stampOf? hasks.stamp) hbeside

/-- Changes of method tables that the receiver's class does not see cost no hit. -/
theorem Reachable.countsHit_after_edits (hw : w.Reachable) (hhit : w.CountsHit id r)
    {es : List (Edit Body)} (hbeside : ∀ e ∈ es, ∃ owner, e.table? = some owner ∧
      owner ∉ (w.hierarchy.ancestors (w.guard r).cls).1) :
    (w.after (es.map .edit)).CountsHit id r := by
  induction es generalizing w with
  | nil => exact hhit
  | cons e es ih =>
    obtain ⟨owner, he, hnot⟩ := hbeside e List.mem_cons_self
    obtain ⟨s, generation, hasks⟩ := hw.sound.asks_of_counts (.inl (by rw [hhit.1]; omega))
    obtain ⟨hasks', hguard, hancestors⟩ := hw.asks_edit hasks he hnot
    have hw' : (w.edit e).2.Reachable := hw.edit (by cases e <;> trivial)
    have hhit' : (w.edit e).2.CountsHit id r := by
      rw [(hw'.sound.counts_iff hasks').1, hguard]
      exact (hw.sound.counts_iff hasks).1.mp hhit
    refine ih hw' hhit' fun e' he' => ?_
    rw [World.move, hguard, hancestors]
    exact hbeside e' (List.mem_cons_of_mem e he')

/-- Along every history, as long as a call site has not seen too many: a call of an object in the runtime
whose class exists counts a hit if the site is warm for it, and a miss otherwise. The site has had room
for every entry so far, and will see too many at the first entry for which it has no room among those
that are up to date. No change of the method table of a record that is not among the ancestors of the
class costs a hit. -/
theorem callSite_hits_iff_warm {options : Options} (hms : (start options).Supports ms)
    (hs : ((start options).after ms).sites[id]? = some s) (hopen : s.isMegamorphic = false) :
    let w := (start options).after ms
    (∀ r : Request, r.route = .site id → r.receiver.isForeign = false →
      w.hierarchy.Knows (w.guard r).cls →
        (w.CountsHit id r ↔ (start options).Warm ms id (w.guard r)) ∧
        (w.CountsMiss id r ↔ ¬ (start options).Warm ms id (w.guard r))) ∧
    (∀ earlier r later, ms = earlier ++ .decide r :: later →
      ¬ ((start options).after earlier).Overfills id r) ∧
    (∀ m, w.AdmitsMove m → ∃ s', (w.move m).sites[id]? = some s' ∧
      (s'.isMegamorphic = true ↔ ∃ r, m = .decide r ∧ w.Overfills id r)) ∧
    (∀ r, w.CountsHit id r → ∀ es : List (Edit Body),
      (∀ e ∈ es, ∃ owner, e.table? = some owner ∧
        owner ∉ (w.hierarchy.ancestors (w.guard r).cls).1) →
      (w.after (es.map .edit)).CountsHit id r) := by
  intro w
  have hw : w.Reachable := (Reachable.start options).after hms
  refine ⟨fun r hroute hnative hknown => ?_, ?_, fun m _ => ?_,
    fun r hhit es hbeside => hw.countsHit_after_edits hhit hbeside⟩
  · obtain ⟨generation, hstamp⟩ := Hierarchy.stampOf?_of_knows hknown
    have hasks : w.Asks id r s generation := ⟨hroute, hs, hnative, hopen, hstamp⟩
    -- A call hits where there is a fresh entry, and there is one where the site is warm.
    have hanswer := (hw.wellFormed hs).answerFor?_eq_none_iff (g := w.guard r) hstamp
    have hwarm := fresh_iff_warm hms hs hopen (w.guard r)
    obtain ⟨hhit, hmiss⟩ := hw.sound.counts_iff hasks
    rw [hhit, hmiss, ← hwarm, ← Option.ne_none_iff_isSome, ne_eq, hanswer]
    simp [w]
  · rintro earlier r later rfl
    exact (Reachable.start options).not_overfills_of_open hms hs hopen
  · obtain ⟨s', hs', -⟩ := hw.sound.exists_site_move hs m
    exact ⟨s', hs', hw.megamorphic_move_iff hs hs' hopen⟩

/-- A call that hits, and still does when the name is defined and removed again beside its class. -/
theorem callSite_hits_iff_warm_beside_redefinitions :
    let call : Request := ⟨.site 0, .object ⟨0, ⟨13⟩⟩, ⟨"m"⟩, [], none⟩
    let ms : List Move :=
      [.edit (.create "A" (some ⟨1⟩) {}), .edit (.create "D" (some ⟨1⟩) {}),
        .edit (.define ⟨13⟩ ⟨"m"⟩ .pub (.constant .nil) {}), .newSite .publicCall 1, .decide call]
    let w := (start {}).after ms
    (start {}).Supports ms ∧ (start {}).Warm ms 0 (w.guard call) ∧ w.CountsHit 0 call ∧
      (w.after [.edit (.define ⟨14⟩ ⟨"m"⟩ .pub (.constant .nil) {}),
        .edit (.remove ⟨14⟩ ⟨"m"⟩)]).CountsHit 0 call := by
  intro call ms w
  have hms : (start {}).Supports ms := by decide +kernel
  have hopen : (w.sites[0]?.map CallSite.isMegamorphic) = some false := by decide +kernel
  obtain ⟨s, hs, hs'⟩ := Option.map_eq_some_iff.mp hopen
  obtain ⟨hwarm, -, -, hbeside⟩ := callSite_hits_iff_warm hms hs hs'
  have hhit : w.CountsHit 0 call := by decide +kernel
  have hnot : (⟨14⟩ : ClassId) ∉ (w.hierarchy.ancestors (w.guard call).cls).1 := by decide +kernel
  refine ⟨hms, (hwarm call rfl rfl (by decide +kernel)).1.mp hhit, hhit, ?_⟩
  refine hbeside call hhit [.define ⟨14⟩ ⟨"m"⟩ .pub (.constant .nil) {}, .remove ⟨14⟩ ⟨"m"⟩] ?_
  simp only [List.mem_cons, List.not_mem_nil, or_false]
  rintro e (rfl | rfl)
  · exact ⟨⟨14⟩, rfl, hnot⟩
  · exact ⟨⟨14⟩, rfl, hnot⟩

/-- Including a module into a class costs a call a hit that has nothing to do with either, and a call
that is stopped at its safepoint is counted neither as a hit nor as a miss. -/
theorem not_countsHit_after_unrelated_include :
    let call : Request := ⟨.site 0, .object ⟨0, ⟨13⟩⟩, ⟨"m"⟩, [], none⟩
    let w := (start {}).after
      [.edit (.create "A" (some ⟨1⟩) {}), .edit (.create "D" (some ⟨1⟩) {}),
        .edit (.create "M" none { isModule := true }),
        .edit (.define ⟨13⟩ ⟨"m"⟩ .pub (.constant .nil) {}), .newSite .publicCall 8, .decide call]
    let included := w.move (.edit (.addInclude ⟨14⟩ ⟨15⟩))
    let stopped := w.move (.safepoints (w.safepoints.submit (.fail (.interrupted "stop"))))
    let run := (Machine.ofRequest stopped ⟨0⟩ call).run 20
    (⟨14⟩ ∉ (included.hierarchy.ancestors ⟨13⟩).1 ∧ ⟨15⟩ ∉ (included.hierarchy.ancestors ⟨13⟩).1 ∧
      ⟨13⟩ ∉ (included.hierarchy.ancestors ⟨14⟩).1 ∧ ⟨13⟩ ∉ (included.hierarchy.ancestors ⟨15⟩).1) ∧
      w.CountsHit 0 call ∧ included.CountsMiss 0 call ∧
      run.outcome?.map Except.isOk = some false ∧
      (run.world?.map fun after => (after.hitsAt 0, after.missesAt 0)) =
        some (w.hitsAt 0, w.missesAt 0) := by
  intro call w included stopped run
  exact ⟨by decide +kernel, by decide +kernel, by decide +kernel, by decide +kernel,
    by decide +kernel⟩

end World

end LateBinding
