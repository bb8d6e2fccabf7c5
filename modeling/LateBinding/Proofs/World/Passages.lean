import LateBinding.Proofs.World.Sites

namespace LateBinding

/-- What a look-up came to is remembered by a site of a given mode. That there is no method is
remembered only where it is asked for. -/
def Remembered.isKept {τ : Type} (mode : Mode) : Remembered τ → Bool
  | method _ => true
  | notFound => mode.isRespondTo

namespace World

/-- The guard under which a call site keeps what it knows about a call. -/
def guard (w : World) (r : Request) : Guard := ⟨w.effectiveClass r.receiver, r.name⟩

/-- What the look-up for a call comes to, as a call site of a given mode remembers it. -/
def finding (w : World) (r : Request) (mode : Mode) : Remembered Target :=
  .ofLookup ((w.hierarchy.view (w.guard r).cls (w.guard r).name).lookup mode)

end World

/-- What becomes of a call site through which a call is decided. -/
inductive CallSite.Passes (s : CallSite Target) (w : World) (r : Request) :
    CallSite Target → Prop where
  | foreign (hforeign : r.receiver.isForeign = true) : Passes s w r s.countAccess
  | bypass (hnative : r.receiver.isForeign = false) (hmega : s.isMegamorphic = true) :
    Passes s w r s.countAccess.countBypass
  | unknown (hnative : r.receiver.isForeign = false) (hmega : s.isMegamorphic = false)
    (hstamp : w.hierarchy.stampOf? (w.guard r).cls = none) : Passes s w r s.countAccess
  | hit (hnative : r.receiver.isForeign = false) (hmega : s.isMegamorphic = false)
    {generation : Nat} (hstamp : w.hierarchy.stampOf? (w.guard r).cls = some generation)
    {remembered : Remembered Target}
    (hanswer : s.answerFor? (w.guard r) generation = some remembered) :
    Passes s w r s.countAccess.countHit
  | miss (hnative : r.receiver.isForeign = false) (hmega : s.isMegamorphic = false)
    {generation : Nat} (hstamp : w.hierarchy.stampOf? (w.guard r).cls = some generation)
    (hanswer : s.answerFor? (w.guard r) generation = none)
    (hkept : (w.finding r s.mode).isKept s.mode = false) :
    Passes s w r s.countAccess.countMiss
  | store (hnative : r.receiver.isForeign = false) (hmega : s.isMegamorphic = false)
    {generation : Nat} (hstamp : w.hierarchy.stampOf? (w.guard r).cls = some generation)
    (hanswer : s.answerFor? (w.guard r) generation = none)
    (hkept : (w.finding r s.mode).isKept s.mode = true) :
    Passes s w r (s.countAccess.countMiss.install w.hierarchy.stampOf?
      ⟨w.guard r, w.finding r s.mode, generation⟩).2

namespace World

/-- The second world has the call sites of the first one, with one of them replaced. -/
def Replaces (w w' : World) (id : Nat) (s : CallSite Target) : Prop :=
  ∀ i, w'.sites[i]? = if id = i then some s else w.sites[i]?

variable {w w' w'' : World} {r : Request} {mode : Mode} {id : Nat} {s s' s'' : CallSite Target}

theorem replaces_modifySite (hs : w.sites[id]? = some s) (f : CallSite Target → CallSite Target) :
    w.Replaces (w.modifySite id f) id (f s) := by
  intro i
  simp only [modifySite, Array.getElem?_modify]
  split
  · rename_i hi
    rw [← hi, hs]
    rfl
  · rfl

theorem Replaces.self (hw : w.Replaces w' id s) : w'.sites[id]? = some s := by
  rw [hw id, if_pos rfl]

theorem Replaces.trans (hfirst : w.Replaces w' id s) (hthen : w'.Replaces w'' id s') :
    w.Replaces w'' id s' := by
  intro i
  rw [hthen i]
  split
  · rfl
  · rename_i hi
    rw [hfirst i, if_neg hi]

theorem Replaces.of_sites_eq (hw : w.Replaces w' id s) (hsites : w''.sites = w'.sites) :
    w.Replaces w'' id s := by
  intro i
  rw [hsites, hw i]

theorem sites_walk (w : World) (cls : ClassId) (name : Symbol) :
    (w.walk cls name).2.sites = w.sites := by
  rw [walk]
  split <;> rfl

theorem sites_lookup (w : World) (cls : ClassId) (name : Symbol) (mode : Mode) :
    (w.lookup cls name mode).2.sites = w.sites :=
  w.sites_walk cls name

theorem sites_decideMissing (w : World) (r : Request) (mode : Mode) :
    (w.decideMissing r mode).2.sites = w.sites := by
  have hfind : (w.findMethod r.receiver .methodMissing).2.sites = w.sites :=
    w.sites_walk (w.effectiveClass r.receiver) .methodMissing
  rw [decideMissing]
  split
  · rfl
  · split
    · rfl
    · generalize w.findMethod r.receiver .methodMissing = asked at hfind
      obtain ⟨found, w₁⟩ := asked
      cases found <;> exact hfind

theorem sites_decideFound (w : World) (r : Request) (mode : Mode) (found : Lookup Target) :
    (w.decideFound r mode found).2.sites = w.sites := by
  cases found with
  | found m => rfl
  | _ => exact w.sites_decideMissing r mode

theorem sites_decideUncached (w : World) (r : Request) (mode : Mode) :
    (w.decideUncached r mode).2.sites = w.sites := by
  have hnative (w : World) (v : Value) : ((w.lookup (w.effectiveClass v) r.name mode).2.decideFound
      r mode (w.lookup (w.effectiveClass v) r.name mode).1).2.sites = w.sites := by
    rw [sites_decideFound, sites_lookup]
  obtain ⟨route, receiver, name, args, block⟩ := r
  cases receiver with
  | foreign f => rfl
  | _ => exact hnative { w with dispatches := w.dispatches + 1 } _

theorem sites_decideRemembered (w : World) (r : Request) (mode : Mode)
    (remembered : Remembered Target) :
    (w.decideRemembered r mode remembered).2.sites = w.sites := by
  cases remembered with
  | method m => rfl
  | notFound => exact w.sites_decideMissing r mode

theorem sites_installThen {entry : SiteEntry Target} {k : World → Decision × World}
    (hk : ∀ w, (k w).2.sites = w.sites) :
    (w.installThen id entry k).2.sites = (w.install id entry).2.sites := by
  rw [installThen]
  split
  · rename_i hinstalled
    rw [hk, hinstalled]
  · rename_i hinstalled
    rw [hinstalled]

theorem replaces_install (hs : w.sites[id]? = some s) (entry : SiteEntry Target) :
    w.Replaces (w.install id entry).2 id (s.install w.hierarchy.stampOf? entry).2 := by
  rw [install, hs]
  exact replaces_modifySite hs fun _ => (s.install w.hierarchy.stampOf? entry).2

/-- Stamps are what they were before a look-up. -/
theorem Sound.stampOf?_lookup (hw : w.Sound) (cls : ClassId) (name : Symbol) (mode : Mode) :
    (w.lookup cls name mode).2.hierarchy.stampOf? = w.hierarchy.stampOf? := by
  have halike := (hw.lookup_spec cls name mode).2.1
  have hrec := hw.hierarchy.recalls_ancestors cls
  have hhierarchy : (w.lookup cls name mode).2.hierarchy = (w.hierarchy.ancestors cls).2 :=
    halike.hierarchy
  rw [hhierarchy]
  exact funext fun id => Hierarchy.stampOf?_of_forget_eq hrec.forget_eq id

/-- A call that its site could not answer leaves an entry there for what the look-up came to, or
nothing. -/
theorem replaces_decideMiss (hs : w.sites[id]? = some s) (g : Guard) (generation : Nat) (r : Request)
    (mode : Mode) :
    w.Replaces (w.decideMiss id mode g generation r).2 id
      (if (Remembered.ofLookup (w.lookup g.cls g.name mode).1).isKept mode then
        (s.install (w.lookup g.cls g.name mode).2.hierarchy.stampOf?
          ⟨g, .ofLookup (w.lookup g.cls g.name mode).1, generation⟩).2
      else s) := by
  have hsites := w.sites_lookup g.cls g.name mode
  rw [decideMiss]
  generalize w.lookup g.cls g.name mode = looked at hsites
  obtain ⟨found, w₁⟩ := looked
  simp only at hsites ⊢
  have hs₁ : w₁.sites[id]? = some s := by rw [hsites, hs]
  have hinstalled {entry : SiteEntry Target} {k : World → Decision × World}
      (hk : ∀ w, (k w).2.sites = w.sites) :
      w.Replaces (w₁.installThen id entry k).2 id (s.install w₁.hierarchy.stampOf? entry).2 := by
    intro i
    rw [sites_installThen hk, replaces_install hs₁ _ i, hsites]
  have hnotFound : w.Replaces (if mode.isRespondTo then
        w₁.installThen id ⟨g, .notFound, generation⟩ fun w => w.decideMissing r mode
      else w₁.decideMissing r mode).2 id
      (if mode.isRespondTo then (s.install w₁.hierarchy.stampOf? ⟨g, .notFound, generation⟩).2
      else s) := by
    split
    · exact hinstalled fun w => w.sites_decideMissing r mode
    · intro i
      rw [sites_decideMissing, hsites]
      split
      · rename_i hi
        rw [← hi, hs]
      · rfl
  cases found with
  | found m => exact hinstalled fun _ => rfl
  | _ => exact hnotFound

/-- In a sound world, the entry is what the hierarchy says, and no stamp has moved. -/
theorem Sound.replaces_decideMiss (hw : w.Sound) (hs : w.sites[id]? = some s) (r : Request)
    (mode : Mode) (generation : Nat) :
    w.Replaces (w.decideMiss id mode (w.guard r) generation r).2 id
      (if (w.finding r mode).isKept mode then
        (s.install w.hierarchy.stampOf? ⟨w.guard r, w.finding r mode, generation⟩).2
      else s) := by
  have hreplaces := World.replaces_decideMiss hs (w.guard r) generation r mode
  rwa [(hw.lookup_spec (w.guard r).cls (w.guard r).name mode).1,
    hw.stampOf?_lookup (w.guard r).cls (w.guard r).name mode] at hreplaces

/-- A call through a site that exists does to this site what is listed, and nothing to other ones. -/
theorem Sound.passes_decide (hw : w.Sound) (hs : w.sites[id]? = some s)
    (hroute : r.route = .site id) :
    ∃ s', s.Passes w r s' ∧ w.Replaces (w.decide r).2 id s' := by
  obtain rfl := hw.site_id hs
  have hkeepAccess : CallSite.KeepsMemory .countAccess := fun _ => ⟨rfl, rfl, rfl, rfl⟩
  have haccess := replaces_modifySite hs .countAccess
  have hcount (f : CallSite Target → CallSite Target) :=
    haccess.trans (replaces_modifySite haccess.self f)
  -- One case for each way through `decideAt`, in its order.
  simp only [World.decide, hroute, hs]
  cases hforeign : r.receiver.isForeign with
  | true =>
    refine ⟨_, .foreign hforeign, ?_⟩
    obtain ⟨route, receiver, name, args, block⟩ := r
    cases receiver with
    | foreign f => exact haccess
    | _ => cases hforeign
  | false =>
    rw [decideAt_native hforeign]
    cases hmega : s.isMegamorphic with
    | true =>
      refine ⟨_, .bypass hforeign hmega, ?_⟩
      exact (hcount .countBypass).of_sites_eq (sites_decideUncached ..)
    | false =>
      rw [if_neg Bool.false_ne_true]
      split
      · rename_i hstamp
        exact ⟨_, .unknown hforeign hmega hstamp, haccess⟩
      · rename_i generation hstamp
        split
        · rename_i remembered hanswer
          refine ⟨_, .hit hforeign hmega hstamp hanswer, ?_⟩
          exact (hcount .countHit).of_sites_eq (sites_decideRemembered ..)
        · rename_i hanswer
          have hkeep : CallSite.KeepsMemory .countMiss := fun _ => ⟨rfl, rfl, rfl, rfl⟩
          have hsound := (hw.count s.id hkeepAccess).count s.id hkeep
          have hmissed := (hcount .countMiss).trans
            (hsound.replaces_decideMiss (hcount .countMiss).self r s.mode generation)
          have hfinding : ((w.modifySite s.id .countAccess).modifySite s.id .countMiss).finding r
              s.mode = w.finding r s.mode := rfl
          rw [hfinding] at hmissed
          cases hkept : (w.finding r s.mode).isKept s.mode with
          | true =>
            rw [hkept] at hmissed
            exact ⟨_, .store hforeign hmega hstamp hanswer hkept, hmissed⟩
          | false =>
            rw [hkept] at hmissed
            exact ⟨_, .miss hforeign hmega hstamp hanswer hkept, hmissed⟩

end World

end LateBinding
