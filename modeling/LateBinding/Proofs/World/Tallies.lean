import LateBinding.Proofs.World.Passages

namespace LateBinding

/-- How a call is counted by the call site through which it goes. -/
inductive Tally where
  | hit
  | miss
  /-- The site does not ask its memory any more. -/
  | bypass
  /-- A foreign object answers for itself. -/
  | foreign
  /-- The class of the receiver does not exist. -/
  | unknown
deriving DecidableEq

/-- What a call site has counted. -/
structure Counts where
  accesses : Nat
  hits : Nat
  misses : Nat
  bypasses : Nat

namespace Counts

/-- The counts behind one more call. -/
def add (c : Counts) : Tally → Counts
  | .hit => { c with accesses := c.accesses + 1, hits := c.hits + 1 }
  | .miss => { c with accesses := c.accesses + 1, misses := c.misses + 1 }
  | .bypass => { c with accesses := c.accesses + 1, bypasses := c.bypasses + 1 }
  | .foreign | .unknown => { c with accesses := c.accesses + 1 }

/-- The counts behind some calls. -/
def ofTallies (ts : List Tally) : Counts :=
  { accesses := ts.length, hits := ts.count .hit, misses := ts.count .miss,
    bypasses := ts.count .bypass }

/-- No counter of the first is ahead of the second. -/
structure Le (c c' : Counts) : Prop where
  accesses : c.accesses ≤ c'.accesses
  hits : c.hits ≤ c'.hits
  misses : c.misses ≤ c'.misses
  bypasses : c.bypasses ≤ c'.bypasses

variable {c c' c'' : Counts}

theorem Le.refl (c : Counts) : c.Le c := ⟨Nat.le_refl _, Nat.le_refl _, Nat.le_refl _, Nat.le_refl _⟩

theorem Le.trans (hfirst : c.Le c') (hthen : c'.Le c'') : c.Le c'' where
  accesses := hfirst.accesses.trans hthen.accesses
  hits := hfirst.hits.trans hthen.hits
  misses := hfirst.misses.trans hthen.misses
  bypasses := hfirst.bypasses.trans hthen.bypasses

theorem le_add (c : Counts) (t : Tally) : c.Le (c.add t) := by
  cases t <;> constructor <;> simp [add]

theorem ofTallies_cons (t : Tally) (ts : List Tally) : ofTallies (t :: ts) = (ofTallies ts).add t := by
  cases t <;> simp [ofTallies, add]

/-- Every call is counted in one way. -/
theorem accesses_ofTallies (ts : List Tally) :
    (ofTallies ts).accesses = (ofTallies ts).hits + (ofTallies ts).misses + (ofTallies ts).bypasses +
      ts.count .foreign + ts.count .unknown := by
  induction ts with
  | nil => rfl
  | cons t ts ih =>
    simp only [ofTallies, List.length_cons, List.count_cons] at ih ⊢
    cases t <;> simp only [beq_self_eq_true, reduceCtorEq, beq_iff_eq, if_true, if_false] <;> omega

end Counts

namespace CallSite

variable {τ : Type} {s s' : CallSite τ} {t : Tally}

/-- What the site has counted. -/
def counts (s : CallSite τ) : Counts :=
  { accesses := s.accesses, hits := s.hits, misses := s.misses, bypasses := s.bypasses }

/-- The site has become the second one by counting a call. What it remembers may have changed. -/
structure Counted (s s' : CallSite τ) (t : Tally) : Prop where
  id : s'.id = s.id
  mode : s'.mode = s.mode
  counts : s'.counts = s.counts.add t

end CallSite

/-- The call fails because the class of its receiver does not exist. -/
def Decision.isRejection : Decision → Bool
  | .fail (.unknownClass _) => true
  | _ => false

namespace World

/-- How a call is counted by a call site through which it goes. -/
def tallyBy (w : World) (r : Request) (s : CallSite Target) : Tally :=
  if r.receiver.isForeign then .foreign
  else if s.isMegamorphic then .bypass
  else
    match w.hierarchy.stampOf? (w.effectiveClass r.receiver) with
    | none => .unknown
    | some generation =>
      match s.answerFor? ⟨w.effectiveClass r.receiver, r.name⟩ generation with
      | some _ => .hit
      | none => .miss

/-- How a call is counted, if it goes through a call site. -/
def tally? (w : World) (r : Request) : Option Tally :=
  match r.route with
  | .uncached _ => none
  | .site id => w.sites[id]?.map (w.tallyBy r)

/-- The call sites know their numbers. -/
def Numbered (w : World) : Prop :=
  ∀ (id : Nat) (s : CallSite Target), w.sites[id]? = some s → s.id = id

variable {w w' : World} {r : Request} {id : Nat} {s s' : CallSite Target}

theorem tally?_of_site (hroute : r.route = .site id) (hs : w.sites[id]? = some s) :
    w.tally? r = some (w.tallyBy r s) := by
  simp only [tally?, hroute, hs, Option.map_some]

theorem tallyBy_of_foreign (hforeign : r.receiver.isForeign = true) : w.tallyBy r s = .foreign :=
  if_pos hforeign

theorem tallyBy_of_megamorphic (hnative : r.receiver.isForeign = false)
    (hmega : s.isMegamorphic = true) : w.tallyBy r s = .bypass := by
  simp [tallyBy, hnative, hmega]

section Asked

variable (hnative : r.receiver.isForeign = false) (hopen : s.isMegamorphic = false)
include hnative hopen

theorem tallyBy_of_unknown (hstamp : w.hierarchy.stampOf? (w.effectiveClass r.receiver) = none) :
    w.tallyBy r s = .unknown := by
  simp [tallyBy, hnative, hopen, hstamp]

variable {generation : Nat}
  (hstamp : w.hierarchy.stampOf? (w.effectiveClass r.receiver) = some generation)
include hstamp

theorem tallyBy_of_answer {remembered : Remembered Target}
    (hanswer : s.answerFor? ⟨w.effectiveClass r.receiver, r.name⟩ generation = some remembered) :
    w.tallyBy r s = .hit := by
  simp [tallyBy, hnative, hopen, hstamp, hanswer]

theorem tallyBy_of_no_answer
    (hanswer : s.answerFor? ⟨w.effectiveClass r.receiver, r.name⟩ generation = none) :
    w.tallyBy r s = .miss := by
  simp [tallyBy, hnative, hopen, hstamp, hanswer]

end Asked

theorem tallyBy_eq_foreign_iff : w.tallyBy r s = .foreign ↔ r.receiver.isForeign = true := by
  refine ⟨fun htally => ?_, tallyBy_of_foreign⟩
  by_contra hnative
  rw [tallyBy, if_neg hnative] at htally
  split at htally
  · cases htally
  · split at htally
    · cases htally
    · split at htally <;> cases htally

theorem isMegamorphic_of_tallyBy (htally : w.tallyBy r s = .bypass) : s.isMegamorphic = true := by
  by_contra hopen
  rw [tallyBy, if_neg hopen] at htally
  split at htally
  · cases htally
  · split at htally
    · cases htally
    · split at htally <;> cases htally

theorem isRejection_decideForeign (w : World) (f : ForeignRef) (r : Request) (mode : Mode) :
    (w.decideForeign f r mode).isRejection = false := by
  rw [decideForeign]
  cases houtcome : (w.foreignObject f).dispatch f r.name r.args mode with
  | ok d => rfl
  | error fault =>
    have hkind := ForeignObject.kind_of_dispatch_error houtcome
    cases fault with
    | unknownClass cls => cases hkind
    | _ => rfl

theorem isRejection_found (r : Request) (mode : Mode) (m : Method Target) :
    (r.found mode m).isRejection = false := by
  rw [Request.found]
  split <;> rfl

theorem isRejection_decideMissing (w : World) (r : Request) (mode : Mode) :
    (w.decideMissing r mode).1.isRejection = false := by
  rw [decideMissing]
  split
  · rfl
  · split
    · rfl
    · split <;> rfl

theorem isRejection_decideFound (w : World) (r : Request) (mode : Mode) (found : Lookup Target) :
    (w.decideFound r mode found).1.isRejection = false := by
  cases found with
  | found m => exact isRejection_found r mode m
  | _ => exact w.isRejection_decideMissing r mode

theorem isRejection_decideUncached (w : World) (r : Request) (mode : Mode) :
    (w.decideUncached r mode).1.isRejection = false := by
  simp only [decideUncached]
  split
  · exact isRejection_decideForeign ..
  · exact isRejection_decideFound ..

theorem isRejection_decideRemembered (w : World) (r : Request) (mode : Mode)
    (remembered : Remembered Target) :
    (w.decideRemembered r mode remembered).1.isRejection = false := by
  cases remembered with
  | method m => exact isRejection_found r mode m
  | notFound => exact w.isRejection_decideMissing r mode

theorem isRejection_installThen {entry : SiteEntry Target} {k : World → Decision × World}
    (hk : ∀ w, (k w).1.isRejection = false) : (w.installThen id entry k).1.isRejection = false := by
  have hinstall : ∀ f, (w.install id entry).1 = .error f → (Decision.fail f).isRejection = false := by
    intro f hf
    rw [install] at hf
    split at hf
    · cases hf
    · simp only [CallSite.install] at hf
      split at hf
      · cases hf
      · split at hf <;> cases hf
        rfl
  rw [installThen]
  generalize w.install id entry = installed at hinstall
  obtain ⟨outcome, w₁⟩ := installed
  cases outcome with
  | ok u => exact hk w₁
  | error f => exact hinstall f rfl

theorem isRejection_decideMiss (w : World) (id : Nat) (mode : Mode) (g : Guard) (generation : Nat)
    (r : Request) : (w.decideMiss id mode g generation r).1.isRejection = false := by
  simp only [decideMiss]
  split
  · exact isRejection_installThen fun _ => isRejection_found ..
  · split
    · exact isRejection_installThen fun w => w.isRejection_decideMissing r mode
    · exact isRejection_decideMissing ..

/-- A call site turns away exactly the calls that it counts so: as long as it asks its memory, it has to
know the class of the receiver. -/
theorem isRejection_decideAt_iff :
    (w.decideAt s r).1.isRejection = true ↔ w.tallyBy r s = .unknown := by
  cases hforeign : r.receiver.isForeign with
  | true =>
    have hdecided : (w.decideAt s r).1.isRejection = false := by
      obtain ⟨route, receiver, name, args, block⟩ := r
      cases receiver with
      | foreign f => exact isRejection_decideForeign ..
      | _ => cases hforeign
    simp [hdecided, tallyBy_of_foreign hforeign]
  | false =>
    rw [decideAt_native hforeign]
    cases hmega : s.isMegamorphic with
    | true => simp [isRejection_decideUncached, tallyBy_of_megamorphic hforeign hmega]
    | false =>
      rw [if_neg Bool.false_ne_true]
      split
      · rename_i hstamp
        simp [Decision.isRejection, tallyBy_of_unknown hforeign hmega hstamp]
      · rename_i generation hstamp
        split
        · rename_i remembered hanswer
          simp [isRejection_decideRemembered, tallyBy_of_answer hforeign hmega hstamp hanswer]
        · rename_i hanswer
          simp [isRejection_decideMiss, tallyBy_of_no_answer hforeign hmega hstamp hanswer]

/-- The calls that are turned away are those that a call site counts as such. -/
theorem isRejection_decide_iff :
    (w.decide r).1.isRejection = true ↔ w.tally? r = some .unknown := by
  cases hroute : r.route with
  | uncached mode => simp [World.decide, tally?, hroute, isRejection_decideUncached]
  | site id =>
    cases hs : w.sites[id]? with
    | none => simp [World.decide, tally?, hroute, hs, Decision.isRejection]
    | some s =>
      simp only [World.decide, tally?, hroute, hs, Option.map_some, Option.some.injEq,
        isRejection_decideAt_iff]

theorem Numbered.of_replaces (hw : w.Numbered) (hreplaces : w.Replaces w' id s) (hid : s.id = id) :
    w'.Numbered := by
  intro i s' hs'
  rw [hreplaces i] at hs'
  split at hs'
  · rename_i hi
    rw [← Option.some.inj hs', hid, hi]
  · exact hw i s' hs'

/-- An entry may be put into the memory of a site whose memory was asked in vain. This moves no
counter. -/
theorem exists_replaces_decideMiss (hs : w.sites[id]? = some s) (mode : Mode) (g : Guard)
    (generation : Nat) (r : Request) :
    ∃ s', w.Replaces (w.decideMiss id mode g generation r).2 id s' ∧
      s'.id = s.id ∧ s'.mode = s.mode ∧ s'.counts = s.counts := by
  refine ⟨_, replaces_decideMiss hs g generation r mode, ?_⟩
  split
  · obtain ⟨_, _, heq⟩ := s.exists_install_eq (w.lookup g.cls g.name mode).2.hierarchy.stampOf?
      ⟨g, .ofLookup (w.lookup g.cls g.name mode).1, generation⟩
    rw [heq]
    exact ⟨rfl, rfl, rfl⟩
  · exact ⟨rfl, rfl, rfl⟩

/-- A call through a site that exists is counted there once, and other sites are left alone. -/
theorem Numbered.counted_decide (hw : w.Numbered) (hs : w.sites[id]? = some s)
    (hroute : r.route = .site id) :
    ∃ s', w.Replaces (w.decide r).2 id s' ∧ s.Counted s' (w.tallyBy r s) := by
  obtain rfl := hw id s hs
  have haccess := replaces_modifySite hs .countAccess
  have hcount (f : CallSite Target → CallSite Target) :=
    haccess.trans (replaces_modifySite haccess.self f)
  -- A call is counted as it is decided, so there is one case for each way through `decideAt`.
  simp only [World.decide, hroute, hs]
  cases hforeign : r.receiver.isForeign with
  | true =>
    rw [tallyBy_of_foreign hforeign]
    refine ⟨s.countAccess, ?_, rfl, rfl, rfl⟩
    obtain ⟨route, receiver, name, args, block⟩ := r
    cases receiver with
    | foreign f => exact haccess
    | _ => cases hforeign
  | false =>
    rw [decideAt_native hforeign]
    cases hmega : s.isMegamorphic with
    | true =>
      rw [if_pos rfl, tallyBy_of_megamorphic hforeign hmega]
      refine ⟨s.countAccess.countBypass, ?_, rfl, rfl, rfl⟩
      exact (hcount .countBypass).of_sites_eq (sites_decideUncached ..)
    | false =>
      rw [if_neg Bool.false_ne_true]
      split
      · rename_i hstamp
        rw [tallyBy_of_unknown hforeign hmega hstamp]
        exact ⟨s.countAccess, haccess, rfl, rfl, rfl⟩
      · rename_i generation hstamp
        split
        · rename_i remembered hanswer
          rw [tallyBy_of_answer hforeign hmega hstamp hanswer]
          refine ⟨s.countAccess.countHit, ?_, rfl, rfl, rfl⟩
          exact (hcount .countHit).of_sites_eq (sites_decideRemembered ..)
        · rename_i hanswer
          rw [tallyBy_of_no_answer hforeign hmega hstamp hanswer]
          obtain ⟨s', hreplaces, hid, hmode, hcounts⟩ := exists_replaces_decideMiss
            (hcount .countMiss).self s.mode ⟨w.effectiveClass r.receiver, r.name⟩ generation r
          exact ⟨s', (hcount .countMiss).trans hreplaces, hid, hmode, hcounts⟩

/-- A call leaves the call sites alone through which it does not go. -/
theorem Numbered.site_decide (hw : w.Numbered) (hroute : r.route ≠ .site id) :
    (w.decide r).2.sites[id]? = w.sites[id]? := by
  cases hr : r.route with
  | uncached mode => simp only [World.decide, hr, sites_decideUncached]
  | site i =>
    cases hs : w.sites[i]? with
    | none => simp only [World.decide, hr, hs]
    | some s =>
      obtain ⟨s', hreplaces, -⟩ := hw.counted_decide hs hr
      have hne : i ≠ id := fun heq => hroute (by rw [hr, heq])
      rw [hreplaces id, if_neg hne]

theorem Sound.numbered (hw : w.Sound) : w.Numbered := fun _ _ hs => hw.site_id hs

theorem Numbered.of_sites_eq (hw : w.Numbered) (hsites : w'.sites = w.sites) : w'.Numbered := by
  intro i s hs
  rw [hsites] at hs
  exact hw i s hs

theorem Numbered.decide (hw : w.Numbered) (r : Request) : (w.decide r).2.Numbered := by
  cases hroute : r.route with
  | uncached mode =>
    refine hw.of_sites_eq ?_
    simp only [World.decide, hroute, sites_decideUncached]
  | site id =>
    cases hs : w.sites[id]? with
    | none =>
      refine hw.of_sites_eq ?_
      simp only [World.decide, hroute, hs]
    | some s =>
      obtain ⟨s', hreplaces, hcounted⟩ := hw.counted_decide hs hroute
      exact hw.of_replaces hreplaces (hcounted.id.trans (hw id s hs))

end World

end LateBinding
