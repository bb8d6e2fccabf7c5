import LateBinding.Proofs.Hierarchy.Filing
import LateBinding.Proofs.Machine.Responding

namespace LateBinding

section

variable {τ : Type} {c : LookupCache τ}

/-- Every method to which a walk in the cache came can be run, whether or not the walk is out of
date. -/
def LookupCache.Runs (c : LookupCache τ) : Prop :=
  ∀ ⦃key kept m⦄, c.walks.get? key = some kept → kept.walk = .defined m → m.CanRun

theorem LookupCache.runs_empty : (empty : LookupCache τ).Runs := by
  intro key kept m hkept
  cases hkept

theorem LookupCache.Runs.insert (hc : c.Runs) {walk : Walk τ}
    (hwalk : ∀ m, walk = .defined m → m.CanRun) (id : ClassId) (name : Symbol) (generation : Nat) :
    (c.insert id name generation walk).Runs := by
  have hput : LookupCache.Runs { c with walks := c.walks.insert (id, name) ⟨generation, walk⟩ } := by
    intro key kept m hkept hm
    simp only [Table.get?_insert] at hkept
    split at hkept
    · obtain rfl := Option.some.inj hkept
      exact hwalk m hm
    · exact hc hkept hm
  rw [LookupCache.insert]
  split
  · split
    · exact hc
    · exact hput
  · exact hput

/-- A walk that the cache does not answer is put into it. -/
theorem LookupCache.Runs.walkCached (hc : c.Runs) {h : Hierarchy τ} (hh : h.Sound)
    (hfiled : h.AllFiled) (id : ClassId) (name : Symbol) : (h.walkCached c id name).2.1.Runs := by
  have hasked (generation : Nat) : (c.get id name generation).2.Runs := by
    intro key kept m hkept
    rw [walks_get] at hkept
    exact hc hkept
  rw [Hierarchy.walkCached]
  split
  · exact hc
  · rename_i r hr
    have hasked := hasked r.stamp
    split
    · rename_i hanswer
      rwa [hanswer] at hasked
    · rename_i hanswer
      rw [hanswer] at hasked
      rw [hh.walk_eq]
      exact hasked.insert (fun m hm => hfiled.canRun hm) id name r.stamp

end

namespace World

variable {w w' : World} {r : Request} {mode : Mode} {id : Nat} {s : CallSite Target}

section

variable {P : World → Prop} (hwalk : ∀ {w} id name, P w → P (w.walk id name).2)
  (hsite : ∀ {w} id f, P w → P (w.modifySite id f))

include hwalk

theorem decideMissing_induction (hw : P w) (r : Request) (mode : Mode) :
    P (w.decideMissing r mode).2 := by
  have hfind : P (w.findMethod r.receiver .methodMissing).2 := hwalk _ _ hw
  rw [decideMissing]
  split
  · exact hw
  · split
    · exact hw
    · generalize w.findMethod r.receiver .methodMissing = asked at hfind
      obtain ⟨found, w₁⟩ := asked
      cases found <;> exact hfind

theorem decideUncached_induction
    (hcount : ∀ {w : World}, P w → P { w with dispatches := w.dispatches + 1 }) (hw : P w)
    (r : Request) (mode : Mode) : P (w.decideUncached r mode).2 := by
  have hnative {w : World} (hw : P w) (cls : ClassId) :
      P ((w.lookup cls r.name mode).2.decideFound r mode (w.lookup cls r.name mode).1).2 := by
    have hlooked : P (w.lookup cls r.name mode).2 := hwalk _ _ hw
    generalize (w.lookup cls r.name mode).1 = found
    cases found with
    | found m => exact hlooked
    | _ => exact decideMissing_induction hwalk hlooked r mode
  obtain ⟨route, receiver, name, args, block⟩ := r
  cases receiver with
  | foreign f => exact hcount hw
  | _ => exact hnative (hcount hw) _

include hsite

theorem decideMiss_induction (hw : P w) (id : Nat) (mode : Mode) (g : Guard) (generation : Nat)
    (r : Request) : P (w.decideMiss id mode g generation r).2 := by
  have hinstall {w : World} (hw : P w) (entry : SiteEntry Target) {k : World → Decision × World}
      (hk : ∀ {w}, P w → P (k w).2) : P (w.installThen id entry k).2 := by
    have hinstalled : P (w.install id entry).2 := by
      rw [install]
      split
      · exact hw
      · exact hsite _ _ hw
    rw [installThen]
    split
    · rename_i heq
      rw [heq] at hinstalled
      exact hk hinstalled
    · rename_i heq
      rw [heq] at hinstalled
      exact hinstalled
  have hlooked : P (w.lookup g.cls g.name mode).2 := hwalk _ _ hw
  rw [decideMiss]
  generalize w.lookup g.cls g.name mode = looked at hlooked
  obtain ⟨found, w₁⟩ := looked
  have hmissing {w : World} (hw : P w) := decideMissing_induction hwalk hw r mode
  cases found with
  | found m => exact hinstall hlooked _ fun hw => hw
  | _ =>
    simp only
    split
    · exact hinstall hlooked _ hmissing
    · exact hmissing hlooked

/-- What lasts when a walk is made, a call site is changed and a look-up is counted, lasts when a
call is decided. -/
theorem decide_induction (hcount : ∀ {w : World}, P w → P { w with dispatches := w.dispatches + 1 })
    (hw : P w) (r : Request) : P (w.decide r).2 := by
  rw [World.decide]
  split
  · exact decideUncached_induction hwalk hcount hw r _
  · split
    · rename_i s hs
      have haccess := hsite s.id CallSite.countAccess hw
      cases hr : r.receiver.isForeign with
      | true =>
        obtain ⟨route, receiver, name, args, block⟩ := r
        cases receiver with
        | foreign f => exact haccess
        | _ => cases hr
      | false =>
        rw [decideAt_native hr]
        split
        · exact decideUncached_induction hwalk hcount (hsite _ _ haccess) r _
        · split
          · exact haccess
          · split
            · rename_i remembered _
              cases remembered with
              | method m => exact hsite _ _ haccess
              | notFound => exact decideMissing_induction hwalk (hsite _ _ haccess) r _
            · exact decideMiss_induction hwalk hsite (hsite _ _ haccess) _ _ _ _ r
    · exact hw

end

/-- The tables are in order, and every method in the cache of walks, or that a script has kept, can be
run. -/
structure Stocked (w : World) : Prop where
  hierarchy : w.hierarchy.Sound
  filed : w.hierarchy.AllFiled
  cache : w.lookupCache.Runs
  kept : ∀ m ∈ w.kept, m.CanRun

theorem Stocked.walk (hw : w.Stocked) (id : ClassId) (name : Symbol) :
    (w.walk id name).2.Stocked := by
  rw [World.walk]
  split
  · have hrec := hw.hierarchy.recalls_walkCached w.lookupCache id name
    exact ⟨hrec.sound, hw.filed.of_recalls hw.hierarchy hrec,
      hw.cache.walkCached hw.hierarchy hw.filed id name, hw.kept⟩
  · have hrec := hw.hierarchy.recalls_ancestors id
    rw [hw.hierarchy.walk_eq]
    exact ⟨hrec.sound, hw.filed.of_recalls hw.hierarchy hrec, hw.cache, hw.kept⟩

theorem Stocked.canRun_of_walk (hw : w.Stocked) (hsound : w.Sound) {id : ClassId} {name : Symbol}
    {m : Method Target} (hm : (w.walk id name).1 = .defined m) : m.CanRun := by
  rw [(hsound.walk_spec id name).1] at hm
  exact hw.filed.canRun hm

theorem Stocked.keep (hw : w.Stocked) {found : Option (Method Target)}
    (hfound : ∀ m, found = some m → m.CanRun) : (w.keep found).Stocked where
  hierarchy := hw.hierarchy
  filed := hw.filed
  cache := hw.cache
  kept m hm := by
    rcases Array.mem_append.mp hm with hold | hnew
    · exact hw.kept m hold
    · exact hfound m (by simpa using hnew)

theorem Stocked.keepMethod (hw : w.Stocked) (hsound : w.Sound) (receiver : Value) (name : Symbol) :
    (w.answer (.keepMethod receiver name)).2.Stocked := by
  have hafter : (w.findMethod receiver name).2.Stocked := hw.walk (w.effectiveClass receiver) name
  exact hafter.keep fun m hm =>
    hw.canRun_of_walk hsound (Walk.eq_defined_of_filter (.inl (Lookup.method?_eq_some_iff.mp hm)))

theorem Stocked.move (hw : w.Stocked) (hsound : w.Sound) {m : Move} (hm : w.AdmitsMove m) :
    (w.move m).Stocked := by
  cases m with
  | edit e =>
    exact ⟨(hsound.evolves_edit hm).sound, hw.filed.apply hw.hierarchy hm, hw.cache, hw.kept⟩
  | ask q =>
    cases q with
    | findMethod receiver name => exact hw.walk _ _
    | keepMethod receiver name => exact hw.keepMethod hsound receiver name
    | singletonClassOf v =>
      have hev := CoreClasses.evolves_singletonClassOf hw.hierarchy hsound.core v
      exact ⟨hev.sound, hw.filed.of_own?_eq hev
        (Hierarchy.own?_singletonClassOf hw.hierarchy hsound.core v), hw.cache, hw.kept⟩
    | _ => exact { hw with }
  | decide r =>
    exact decide_induction (P := Stocked) (fun id name hw => hw.walk id name)
      (fun _ _ hw => { hw with }) (fun hw => { hw with }) hw r
  | walk id name => exact hw.walk id name
  | clearCache => exact { hw with cache := LookupCache.runs_empty }
  | _ => exact { hw with }

theorem stocked_start (options : Options) : (start options).Stocked := by
  refine start_induction (P := Stocked) (fun w core e he hw => ?_) ?_
  · have hadmits : w.Admits e := admits_of_mem_definitions he w
    exact ⟨(hw.hierarchy.evolves_apply hadmits).sound, hw.filed.apply hw.hierarchy hadmits, hw.cache,
      hw.kept⟩
  · refine ⟨CoreClasses.sound_bootstrap, fun id name m hm => ?_, LookupCache.runs_empty, fun m hm => ?_⟩
    · cases (CoreClasses.own?_bootstrap id name).symm.trans hm
    · cases Array.not_mem_empty m hm

theorem Reachable.stocked (hw : w.Reachable) : w.Stocked :=
  hw.induction_move stocked_start fun hw hm hstocked => hstocked.move hw.sound hm

/-- Whatever a walk comes to can be run, also through the cache. -/
theorem Reachable.canRun_of_walk (hw : w.Reachable) {id : ClassId} {name : Symbol}
    {m : Method Target} (hm : (w.walk id name).1 = .defined m) : m.CanRun :=
  hw.stocked.canRun_of_walk hw.sound hm

/-- A walk comes to a method of the name for which it was made. -/
theorem Reachable.name_eq_of_walk (hw : w.Reachable) {id : ClassId} {name : Symbol}
    {m : Method Target} (hm : (w.walk id name).1 = .defined m) : m.name = name := by
  rw [(hw.sound.walk_spec id name).1] at hm
  exact hw.stocked.filed.name_eq hm

/-- What a call site remembers has come from a look-up, then or earlier. -/
theorem Reachable.canRun_of_mem_entries (hw : w.Reachable) (hs : w.sites[id]? = some s)
    {e : SiteEntry Target} (he : e ∈ s.state.entries) {m : Method Target}
    (hm : e.target = .method m) : m.CanRun := by
  refine hw.site_induction (P := fun s => ∀ e ∈ s.state.entries, ∀ m, e.target = .method m → m.CanRun)
    (fun _ _ _ e he => ?_) (fun {w id s r s'} hw hs hpasses hruns e he m hm => ?_) hs e he m hm
  · cases he
  · rcases hpasses.mem_entries he with hold | hfinding
    · exact hruns e hold m hm
    · have hview : w.hierarchy.view (w.guard r).cls (w.guard r).name = .defined m := by
        rw [hfinding, finding] at hm
        cases hlookup : (w.hierarchy.view (w.guard r).cls (w.guard r).name).lookup s.mode with
        | found m' =>
          rw [hlookup] at hm
          cases hm
          exact Walk.eq_defined_of_filter (.inl hlookup)
        | _ =>
          rw [hlookup] at hm
          cases hm
      exact hw.stocked.filed.canRun hview

theorem Reachable.canRun_of_invoke (hw : w.Reachable) {m : Method Target} {receiver : Value}
    {args : List Value} {block : Option Block}
    (hinvoke : (w.decide r).1 = .invoke m receiver args block) : m.CanRun := by
  obtain ⟨mode, -, -, -, -, ⟨hfound, -, -⟩ | ⟨-, -, hhook, -⟩⟩ := hw.sound.invoke_cases hinvoke
  · exact hw.canRun_of_walk (Walk.eq_defined_of_filter (.inl hfound))
  · exact hw.canRun_of_walk (Walk.eq_defined_of_filter (.inl (Lookup.method?_eq_some_iff.mp hhook)))

/-- A call is refused for want of a hook or of a class, or because a foreign object refuses it. -/
theorem Sound.decide_ne_fail_tombstoneInvoked (hw : w.Sound) (r : Request) (name : Symbol) :
    (w.decide r).1 ≠ .fail (.tombstoneInvoked name) := by
  cases hforeign : r.receiver.isForeign with
  | true =>
    rcases decide_foreign (w := w) hforeign with hmissing | ⟨object, f, mode, hdecide⟩
    · simp [hmissing]
    · rw [hdecide]
      cases houtcome : object.dispatch f r.name r.args mode with
      | ok d => simp [Decision.ofOutcome]
      | error fault =>
        have hkind := ForeignObject.kind_of_dispatch_error houtcome
        intro hfail
        rw [Decision.fail.inj hfail] at hkind
        cases hkind
  | false =>
    intro hfail
    rcases hw.decide_native hforeign with ⟨mode, -, hverdict⟩ | hunknown | hmissing
    · rw [hfail, verdict_native hforeign] at hverdict
      cases eq_hookMissing_of_judge_eq_fail hverdict.symm
    · rw [hfail] at hunknown
      cases hunknown
    · rw [hfail] at hmissing
      cases hmissing

theorem Reachable.ofDecision_ne_tombstoneInvoked (hw : w.Reachable) (r : Request) (name : Symbol) :
    Control.ofDecision (w.decide r).1 ≠ .result (.error (.tombstoneInvoked name)) := by
  cases hdecide : (w.decide r).1 with
  | answer d => simp [Control.ofDecision]
  | fail f =>
    intro hunreached
    cases hunreached
    exact hw.sound.decide_ne_fail_tombstoneInvoked r name hdecide
  | invoke m receiver args block =>
    obtain ⟨-, t, ht⟩ := hw.canRun_of_invoke hdecide
    simp [Control.ofDecision, ht]

/-- Wherever the runtime finds or keeps a method, it can be run, and no call is decided to run a
tombstone. -/
structure SparesTombstones (w : World) : Prop where
  filed : w.hierarchy.AllFiled
  lookup : ∀ {id name mode m}, (w.lookup id name mode).1 = .found m ∨
    (w.lookup id name mode).1 = .hidden m → m.CanRun
  lookupAny : ∀ {id name m}, (w.lookupAny id name).1 = .found m ∨
    (w.lookupAny id name).1 = .hidden m → m.CanRun
  /-- Whether or not the entry is out of date. -/
  site : ∀ {i : Nat} {s : CallSite Target} {e : SiteEntry Target} {m : Method Target},
    w.sites[i]? = some s → e ∈ s.state.entries → e.target = .method m → m.CanRun
  /-- Whether or not the walk is out of date. -/
  cache : ∀ {key kept m}, w.lookupCache.walks.get? key = some kept → kept.walk = .defined m → m.CanRun
  /-- Whatever has become of the table from which a script has the method. -/
  kept : ∀ m ∈ w.kept, m.CanRun
  invoke : ∀ {r m receiver args block}, (w.decide r).1 = .invoke m receiver args block → m.CanRun
  unreached : ∀ r name, Control.ofDecision (w.decide r).1 ≠ .result (.error (.tombstoneInvoked name))

/-- Whatever was done with a hierarchy, every entry of a table is where it says, and whatever a
look-up finds or hides can be run. In every state that a program can bring about, this is so as
well, and what the cache of walks, the call sites and scripts keep can be run. No call comes to a
tombstone that is to be run. -/
theorem tombstones_never_run {τ : Type} {ops : List (Operation τ)}
    (hops : (Hierarchy.empty : Hierarchy τ).Supports ops) (hw : w.Reachable) :
    (let h : Hierarchy τ := Hierarchy.empty.after ops
     (∀ id name m, h.own? id name = some m → h.Filed id name m) ∧
      ∀ id name visible m, (h.walk id name).1.filter visible = .found m ∨
        (h.walk id name).1.filter visible = .hidden m → m.CanRun) ∧
      w.SparesTombstones := by
  have hh : (Hierarchy.empty.after ops : Hierarchy τ).Sound := Hierarchy.sound_after hops
  have hfiled : (Hierarchy.empty.after ops : Hierarchy τ).AllFiled := Hierarchy.allFiled_after hops
  refine ⟨⟨fun id name m hm => hfiled hm, fun id name visible m hm => ?_⟩, ?_⟩
  · have hwalk := Walk.eq_defined_of_filter hm
    rw [hh.walk_eq] at hwalk
    exact hfiled.canRun hwalk
  · exact
      { filed := hw.stocked.filed
        lookup := fun hm => hw.canRun_of_walk (Walk.eq_defined_of_filter hm)
        lookupAny := fun hm => by
          simp only [World.lookupAny, Walk.lookupAny] at hm
          exact hw.canRun_of_walk (Walk.eq_defined_of_filter hm)
        site := fun hs he hm => hw.canRun_of_mem_entries hs he hm
        cache := fun hkept hm => hw.stocked.cache hkept hm
        kept := hw.stocked.kept
        invoke := fun hinvoke => hw.canRun_of_invoke hinvoke
        unreached := hw.ofDecision_ne_tombstoneInvoked }

/-- An alias of an alias, a visibility copy of an inherited one, and a method that is defined where
a tombstone stood, although it was to be marked as one. And a call site that still has a method
after its class has undefined it. -/
theorem tombstones_never_run_after_undefine :
    let ops : List (Operation Unit) :=
      [.edit (.create "A" none {}), .edit (.create "B" (some ⟨0⟩) {}),
        .edit (.define ⟨0⟩ ⟨"run"⟩ .pub () {}), .edit (.addAlias ⟨0⟩ ⟨"go"⟩ ⟨"run"⟩),
        .edit (.addAlias ⟨1⟩ ⟨"move"⟩ ⟨"go"⟩), .edit (.setVisibility ⟨1⟩ ⟨"go"⟩ .priv),
        .edit (.undefine ⟨1⟩ ⟨"run"⟩),
        .edit (.define ⟨1⟩ ⟨"run"⟩ .pub () { undefined := true })]
    let h : Hierarchy Unit := Hierarchy.empty.after ops
    let call : Request := ⟨.site 0, .object ⟨0, ⟨1⟩⟩, ⟨"run"⟩, [], none⟩
    let w := (start {}).after [.edit (.define ⟨1⟩ ⟨"run"⟩ .pub (.constant .nil) {}),
      .newSite .publicCall 8, .decide call, .edit (.undefine ⟨1⟩ ⟨"run"⟩)]
    (∀ name ∈ ["run", "go", "move"], ∃ m, h.own? ⟨1⟩ ⟨name⟩ = some m ∧ m.name = ⟨name⟩ ∧ m.CanRun) ∧
      (∃ s e m, w.sites[0]? = some s ∧ e ∈ s.state.entries ∧ e.target = .method m ∧ m.CanRun) ∧
        Control.ofDecision (w.decide call).1 ≠ .result (.error (.tombstoneInvoked ⟨"run"⟩)) := by
  intro ops h call w
  have hops : (Hierarchy.empty : Hierarchy Unit).Supports ops := by decide +kernel
  have hw : w.Reachable := (Reachable.start {}).after (by decide +kernel)
  obtain ⟨⟨hfiled, -⟩, hspares⟩ := tombstones_never_run hops hw
  refine ⟨fun name hname => ?_, ?_, hspares.unreached call ⟨"run"⟩⟩
  · have hlive : (h.own? ⟨1⟩ ⟨name⟩).map Method.isUndefined = some false := by
      revert name
      decide +kernel
    obtain ⟨m, hm, hdefined⟩ := Option.map_eq_some_iff.mp hlive
    have hentry := hfiled ⟨1⟩ ⟨name⟩ m hm
    exact ⟨m, hm, hentry.name_eq, hentry.wellMarked.canRun hdefined⟩
  · have hkept : (w.sites[0]?.any fun s => s.state.entries.any fun e => e.target.method?.isSome) =
        true := by decide +kernel
    obtain ⟨s, hs, hentries⟩ := (Option.any_eq_true _ _).mp hkept
    obtain ⟨e, he, hmethod⟩ := List.any_eq_true.mp hentries
    cases htarget : e.target with
    | method m => exact ⟨s, e, m, hs, he, htarget, hspares.site hs he htarget⟩
    | notFound =>
      rw [htarget] at hmethod
      cases hmethod

end World

end LateBinding
