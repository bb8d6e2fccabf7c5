import LateBinding.Proofs.CallSite.Shape
import LateBinding.Proofs.World.Tallies

namespace LateBinding

namespace World

/-- The hits that a call site has counted. -/
def hitsAt (w : World) (id : Nat) : Nat := (w.sites[id]?.map CallSite.hits).getD 0

/-- The misses that a call site has counted. -/
def missesAt (w : World) (id : Nat) : Nat := (w.sites[id]?.map CallSite.misses).getD 0

/-- A call that gets past its safepoint counts a hit at a call site. -/
def CountsHit (w : World) (id : Nat) (r : Request) : Prop :=
  (w.decide r).2.hitsAt id = w.hitsAt id + 1 ∧ (w.decide r).2.missesAt id = w.missesAt id

/-- A call that gets past its safepoint counts a miss at a call site. -/
def CountsMiss (w : World) (id : Nat) (r : Request) : Prop :=
  (w.decide r).2.hitsAt id = w.hitsAt id ∧ (w.decide r).2.missesAt id = w.missesAt id + 1

instance (w : World) (id : Nat) (r : Request) : Decidable (w.CountsHit id r) :=
  inferInstanceAs (Decidable (_ ∧ _))

instance (w : World) (id : Nat) (r : Request) : Decidable (w.CountsMiss id r) :=
  inferInstanceAs (Decidable (_ ∧ _))

/-- A call makes an entry for a guard in the memory of a call site: the site does not know the answer,
and the look-up finds a method, or the site is one that asks. -/
structure Installs (w : World) (id : Nat) (g : Guard) (r : Request) : Prop where
  guard_eq : w.guard r = g
  misses : w.CountsMiss id r
  kept : ∃ s, w.sites[id]? = some s ∧
    ((∃ m, (w.lookup g.cls g.name s.mode).1 = .found m) ∨ s.mode.isRespondTo = true)

/-- A call asks the memory of a call site about a class with a given stamp. -/
structure Asks (w : World) (id : Nat) (r : Request) (s : CallSite Target) (generation : Nat) :
    Prop where
  route : r.route = .site id
  site : w.sites[id]? = some s
  native : r.receiver.isForeign = false
  notMegamorphic : s.isMegamorphic = false
  stamp : w.hierarchy.stampOf? (w.guard r).cls = some generation

variable {w : World} {id : Nat} {g : Guard} {r : Request} {s s' : CallSite Target} {generation : Nat}
  {remembered : Remembered Target}

theorem hitsAt_eq (hs : w.sites[id]? = some s) : w.hitsAt id = s.hits := by
  rw [hitsAt, hs]
  rfl

theorem missesAt_eq (hs : w.sites[id]? = some s) : w.missesAt id = s.misses := by
  rw [missesAt, hs]
  rfl

/-- A call that asks the memory of a site finds its answer there, or is counted as a miss. Then it may
leave an entry. -/
theorem Asks.passes_cases (hasks : w.Asks id r s generation) (hpasses : s.Passes w r s') :
    (∃ remembered, s.answerFor? (w.guard r) generation = some remembered) ∧
        s' = s.countAccess.countHit ∨
      s.answerFor? (w.guard r) generation = none ∧
        ((w.finding r s.mode).isKept s.mode = false ∧ s' = s.countAccess.countMiss ∨
          (w.finding r s.mode).isKept s.mode = true ∧
            s' = (s.countAccess.countMiss.install w.hierarchy.stampOf?
              ⟨w.guard r, w.finding r s.mode, generation⟩).2) := by
  have hnative := hasks.native
  have hopen := hasks.notMegamorphic
  have hstamp := hasks.stamp
  cases hpasses with
  | foreign h =>
    rw [hnative] at h
    cases h
  | bypass _ h =>
    rw [hopen] at h
    cases h
  | unknown _ _ h =>
    rw [hstamp] at h
    cases h
  | hit _ _ h hanswer =>
    rw [hstamp, Option.some.injEq] at h
    subst h
    exact .inl ⟨⟨_, hanswer⟩, rfl⟩
  | miss _ _ h hanswer hkept =>
    rw [hstamp, Option.some.injEq] at h
    subst h
    exact .inr ⟨hanswer, .inl ⟨hkept, rfl⟩⟩
  | store _ _ h hanswer hkept =>
    rw [hstamp, Option.some.injEq] at h
    subst h
    exact .inr ⟨hanswer, .inr ⟨hkept, rfl⟩⟩

/-- A call that goes through a site without asking its memory leaves the memory alone, and counts
neither a hit nor a miss. -/
theorem asks_or_of_passes (hs : w.sites[id]? = some s) (hroute : r.route = .site id)
    (hpasses : s.Passes w r s') :
    (∃ generation, w.Asks id r s generation) ∨
      s'.state = s.state ∧ s'.isMegamorphic = s.isMegamorphic ∧ s'.hits = s.hits ∧
        s'.misses = s.misses := by
  cases hpasses with
  | foreign | bypass | unknown => exact .inr ⟨rfl, rfl, rfl, rfl⟩
  | hit hnative hopen hstamp => exact .inl ⟨_, hroute, hs, hnative, hopen, hstamp⟩
  | miss hnative hopen hstamp => exact .inl ⟨_, hroute, hs, hnative, hopen, hstamp⟩
  | store hnative hopen hstamp => exact .inl ⟨_, hroute, hs, hnative, hopen, hstamp⟩

theorem Sound.countsHit_of_answer (hw : w.Sound) (hasks : w.Asks id r s generation)
    (hanswer : s.answerFor? (w.guard r) generation = some remembered) : w.CountsHit id r := by
  obtain ⟨s', hpasses, hreplaces⟩ := hw.passes_decide hasks.site hasks.route
  rw [CountsHit, hitsAt_eq hreplaces.self, missesAt_eq hreplaces.self, hitsAt_eq hasks.site,
    missesAt_eq hasks.site]
  rcases hasks.passes_cases hpasses with ⟨-, rfl⟩ | ⟨hnone, -⟩
  · exact ⟨rfl, rfl⟩
  · rw [hanswer] at hnone
    cases hnone

theorem Sound.countsMiss_of_no_answer (hw : w.Sound) (hasks : w.Asks id r s generation)
    (hanswer : s.answerFor? (w.guard r) generation = none) : w.CountsMiss id r := by
  obtain ⟨s', hpasses, hreplaces⟩ := hw.passes_decide hasks.site hasks.route
  rw [CountsMiss, hitsAt_eq hreplaces.self, missesAt_eq hreplaces.self, hitsAt_eq hasks.site,
    missesAt_eq hasks.site]
  rcases hasks.passes_cases hpasses with ⟨⟨remembered, hsome⟩, -⟩ | ⟨-, ⟨-, rfl⟩ | ⟨-, rfl⟩⟩
  · rw [hanswer] at hsome
    cases hsome
  · exact ⟨rfl, rfl⟩
  · obtain ⟨_, _, heq⟩ := s.countAccess.countMiss.exists_install_eq w.hierarchy.stampOf?
      ⟨w.guard r, w.finding r s.mode, generation⟩
    rw [heq]
    exact ⟨rfl, rfl⟩

/-- What is counted as a hit or a miss has asked the memory of the site. -/
theorem Sound.asks_of_counts (hw : w.Sound)
    (hcounts : (w.decide r).2.hitsAt id ≠ w.hitsAt id ∨ (w.decide r).2.missesAt id ≠ w.missesAt id) :
    ∃ s generation, w.Asks id r s generation := by
  have hsites : (w.decide r).2.sites[id]? ≠ w.sites[id]? := by
    intro hsame
    simp only [hitsAt, missesAt, hsame, ne_eq, not_true_eq_false, or_self] at hcounts
  have hroute : r.route = .site id := by
    by_contra hroute
    exact hsites (hw.numbered.site_decide hroute)
  cases hs : w.sites[id]? with
  | none =>
    refine absurd ?_ hsites
    simp only [World.decide, hroute, hs]
  | some s =>
    obtain ⟨s', hpasses, hreplaces⟩ := hw.passes_decide hs hroute
    rw [hitsAt_eq hreplaces.self, missesAt_eq hreplaces.self, hitsAt_eq hs, missesAt_eq hs]
      at hcounts
    rcases asks_or_of_passes hs hroute hpasses with ⟨generation, hasks⟩ | ⟨-, -, hhits, hmisses⟩
    · exact ⟨s, generation, hasks⟩
    · rw [hhits, hmisses] at hcounts
      simp at hcounts

/-- A call that asks the memory of a site counts a hit if it is answered there, and a miss if it is
not. -/
theorem Sound.counts_iff (hw : w.Sound) (hasks : w.Asks id r s generation) :
    (w.CountsHit id r ↔ (s.answerFor? (w.guard r) generation).isSome) ∧
      (w.CountsMiss id r ↔ s.answerFor? (w.guard r) generation = none) := by
  cases hanswer : s.answerFor? (w.guard r) generation with
  | some remembered =>
    have hhit := hw.countsHit_of_answer hasks hanswer
    refine ⟨iff_of_true hhit rfl, iff_of_false (fun hmiss => ?_) (by simp)⟩
    have hboth := hmiss.1.symm.trans hhit.1
    omega
  | none =>
    have hmiss := hw.countsMiss_of_no_answer hasks hanswer
    refine ⟨iff_of_false (fun hhit => ?_) (by simp), iff_of_true hmiss rfl⟩
    have hboth := hmiss.1.symm.trans hhit.1
    omega

theorem Sound.isKept_finding_iff (hw : w.Sound) (r : Request) (mode : Mode) :
    (w.finding r mode).isKept mode = true ↔
      (∃ m, (w.lookup (w.guard r).cls (w.guard r).name mode).1 = .found m) ∨
        mode.isRespondTo = true := by
  rw [(hw.lookup_spec ..).1, finding]
  cases (w.hierarchy.view (w.guard r).cls (w.guard r).name).lookup mode with
  | found m => simp [Remembered.ofLookup, Remembered.isKept]
  | _ => simp [Remembered.ofLookup, Remembered.isKept]

/-- The calls that make an entry are those that ask the memory of the site in vain, for something that
the site keeps. -/
theorem Sound.installs_iff (hw : w.Sound) (hasks : w.Asks id r s generation) :
    w.Installs id g r ↔ w.guard r = g ∧ s.answerFor? (w.guard r) generation = none ∧
      (w.finding r s.mode).isKept s.mode = true := by
  rw [hw.isKept_finding_iff, ← (hw.counts_iff hasks).2]
  constructor
  · rintro ⟨rfl, hmiss, s', hs', hkept⟩
    rw [hasks.site, Option.some.injEq] at hs'
    exact ⟨rfl, hmiss, hs' ▸ hkept⟩
  · rintro ⟨rfl, hmiss, hkept⟩
    exact ⟨rfl, hmiss, s, hasks.site, hkept⟩

theorem Sound.asks_of_installs (hw : w.Sound) (hinstalls : w.Installs id g r) :
    ∃ s generation, w.Asks id r s generation := by
  refine hw.asks_of_counts (.inr ?_)
  have hmiss := hinstalls.misses.2
  omega

end World

end LateBinding
