import LateBinding.Proofs.Machine.Runs

namespace LateBinding

namespace World

/-- The states of a runtime that a program can bring about, as long as it makes records below records that
exist, be they classes or singleton classes. Running a method goes through such states too
(`Machine.reachable_of_step`). -/
inductive Reachable : World → Prop where
  | start (options : Options) : Reachable (start options)
  | edit {w : World} (hw : Reachable w) {e : Edit Body} (he : w.Admits e) : Reachable (w.edit e).2
  | answer {w : World} (hw : Reachable w) (q : Query) : Reachable (w.answer q).2
  | decide {w : World} (hw : Reachable w) (r : Request) : Reachable (w.decide r).2
  | walk {w : World} (hw : Reachable w) (id : ClassId) (name : Symbol) :
    Reachable (w.walk id name).2
  | newSite {w : World} (hw : Reachable w) (mode : Mode) (limit : Nat) :
    Reachable (w.newSite mode limit).2
  | clearCache {w : World} (hw : Reachable w) :
    Reachable { w with lookupCache := w.lookupCache.clear }
  | newObject {w : World} (hw : Reachable w) (cls : ClassId) : Reachable (w.newObject cls).2
  | newForeign {w : World} (hw : Reachable w) (typeName : String) (object : ForeignObject) :
    Reachable (w.newForeign typeName object).2
  | safepoints {w : World} (hw : Reachable w) (safepoints : Safepoints Script) :
    Reachable { w with safepoints }

variable {w : World}

theorem Sound.newSite (hw : w.Sound) (mode : Mode) (limit : Nat) :
    (w.newSite mode limit).2.Sound := by
  have hsite {i : Nat} {s : CallSite Target} (hs : (w.newSite mode limit).2.sites[i]? = some s) :
      s.id = i ∧ s.Sound w.hierarchy := by
    simp only [World.newSite, Array.getElem?_push] at hs
    split at hs
    · rename_i hi
      obtain rfl := Option.some.inj hs
      exact ⟨hi.symm, CallSite.sound_new ..⟩
    · exact ⟨hw.site_id hs, hw.site hs⟩
  exact ⟨hw.hierarchy, hw.core, hw.lookupCache, fun hs => (hsite hs).1, fun hs => (hsite hs).2⟩

/-- Whatever a program does, what is remembered is right. -/
theorem Reachable.sound (hw : w.Reachable) : w.Sound := by
  induction hw with
  | start options => exact sound_start options
  | edit _ he ih => exact ih.edit he
  | answer _ q ih => exact ih.answer q
  | decide _ r ih => exact ih.decide r
  | walk _ id name ih => exact (ih.walk_spec id name).2.2
  | newSite _ mode limit ih => exact ih.newSite mode limit
  | clearCache _ ih => exact ih.clearCache
  | newObject _ cls ih => exact ih.of_eq rfl rfl rfl rfl
  | newForeign _ typeName object ih => exact ih.of_eq rfl rfl rfl rfl
  | safepoints _ s ih => exact ih.of_eq rfl rfl rfl rfl

/-- In every state that a program can bring about, a call through a site and the call in the same
mode that looks for its method afresh are decided alike. The two calls also come to the same as a
whole, whatever is done at the safepoint on the way, and however far they are followed. -/
theorem decide_site_eq_decide_uncached (hw : w.Reachable) {id : Nat} {s : CallSite Target}
    (hs : w.sites[id]? = some s) {receiver : Value} (hclass : w.HasClass receiver) (name : Symbol)
    (args : List Value) (block : Option Block) :
    let cached : Request := ⟨.site id, receiver, name, args, block⟩
    let afresh : Request := ⟨.uncached s.mode, receiver, name, args, block⟩
    (w.decide cached).1 = (w.decide afresh).1 ∧
      ∀ thread steps, (Machine.ofRequest w thread afresh).Regular steps →
        (Machine.ofRequest w thread cached).moments steps =
            (Machine.ofRequest w thread afresh).moments steps ∧
          ((Machine.ofRequest w thread cached).run steps).outcome? =
            ((Machine.ofRequest w thread afresh).run steps).outcome? := by
  intro cached afresh
  have hsound := hw.sound
  have htwins : Twins w.modes w w := ⟨.refl w, hsound, hsound, rfl⟩
  have hmode : (Route.site id).mode? w.modes = some s.mode := by
    rw [Route.mode?, getElem?_modes, hs, Option.map_some]
  have hcalls : afresh.Alike w.modes cached := ⟨hmode, rfl, rfl, rfl, rfl⟩
  obtain ⟨hdecision, -⟩ := htwins.decide hcalls fun _ => hclass
  refine ⟨hdecision, fun thread steps hregular => ?_⟩
  have hmachines : (Machine.ofRequest w thread afresh).Alike w.modes
      (Machine.ofRequest w thread cached) := ⟨htwins, rfl, .arrive (.some hcalls), .nil⟩
  exact ⟨hmachines.moments_eq hregular, (hmachines.run hregular).outcome?_eq⟩

/-- A site that remembers a method which was redefined since. -/
theorem decide_site_eq_decide_uncached_after_redefinition :
    let receiver : Value := .object ⟨0, ⟨1⟩⟩
    let defined := ((start {}).edit (.define ⟨1⟩ ⟨"foo"⟩ .pub (.constant .nil) {})).2
    let called := ((defined.newSite .publicCall 8).2.decide
      ⟨.site 0, receiver, ⟨"foo"⟩, [], none⟩).2
    let w := (called.edit (.define ⟨1⟩ ⟨"foo"⟩ .pub (.constant (.bool true)) {})).2
    ∃ s, w.sites[0]? = some s ∧ s.state.kind = .monomorphic ∧
      (w.decide ⟨.site 0, receiver, ⟨"foo"⟩, [], none⟩).1 =
        (w.decide ⟨.uncached s.mode, receiver, ⟨"foo"⟩, [], none⟩).1 := by
  intro receiver defined called w
  have hdefined : defined.Reachable := (Reachable.start {}).edit True.intro
  have hcalled : called.Reachable := (hdefined.newSite .publicCall 8).decide _
  have hw : w.Reachable := hcalled.edit True.intro
  have hkind : (w.sites[0]?.map fun s => s.state.kind) = some .monomorphic := by decide +kernel
  have hclass : w.HasClass receiver := by decide +kernel
  obtain ⟨s, hs, hmonomorphic⟩ := Option.map_eq_some_iff.mp hkind
  exact ⟨s, hs, hmonomorphic, (decide_site_eq_decide_uncached hw hs hclass ⟨"foo"⟩ [] none).1⟩

end World

end LateBinding
