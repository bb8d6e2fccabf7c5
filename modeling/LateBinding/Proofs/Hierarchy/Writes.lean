import LateBinding.Proofs.Hierarchy.Filing
import LateBinding.Proofs.Hierarchy.Order
import LateBinding.Proofs.Hierarchy.Tables

namespace LateBinding

variable {τ : Type}

namespace Edit

/-- The record and the name for which a request writes or removes an entry. -/
def slot? : Edit τ → Option (ClassId × Symbol)
  | define owner name .. => some (owner, name)
  | remove owner name => some (owner, name)
  | undefine owner name => some (owner, name)
  | addAlias owner new _ => some (owner, new)
  | setVisibility owner name _ => some (owner, name)
  | _ => none

/-- What a request leaves in a table if it is granted: an entry that is made for the purpose or
copied from the method to which a walk from the owner comes, or no entry. -/
def Leaves (h : Hierarchy τ) (entry : Option (Method τ)) : Edit τ → Prop
  | define owner name visibility target flags =>
    entry = some {
      name, owner, visibility, target := some target, flags := { flags with undefined := false },
      generation := h.generation + 1 }
  | remove .. => entry = none
  | undefine owner name =>
    entry = some {
      name, owner, visibility := .pub, target := none, flags := { undefined := true },
      generation := h.generation + 1 }
  | addAlias owner new old =>
    ∃ m, (h.walk owner old).1 = .defined m ∧
      entry = some { m with name := new, owner, generation := h.generation + 1 }
  | setVisibility owner name visibility =>
    ∃ m, (h.walk owner name).1 = .defined m ∧ m.name = name ∧
      entry = some { m with owner, visibility, generation := h.generation + 1 }
  | _ => False

theorem table?_of_slot? {e : Edit τ} {owner : ClassId} {name : Symbol}
    (hslot : e.slot? = some (owner, name)) : e.table? = some owner := by
  cases e <;> cases hslot <;> rfl

end Edit

namespace Hierarchy

variable {h h' : Hierarchy τ} {owner id : ClassId} {name x : Symbol} {entry : Option (Method τ)}
  {behind : List ClassId}

/-- A walk for a name from a record comes by the owner: none of the ancestors that are listed before
the owner has an own entry for the name. The others stand behind it. -/
def ComesBy (h : Hierarchy τ) (id : ClassId) (name : Symbol) (owner : ClassId)
    (behind : List ClassId) : Prop :=
  ∃ before, (h.ancestors id).1 = before ++ owner :: behind ∧ ∀ a ∈ before, h.own? a name = none

/-- The second hierarchy has the ancestors of the first one, and its tables but for one entry. -/
structure Rewrites (owner : ClassId) (name : Symbol) (entry : Option (Method τ))
    (h h' : Hierarchy τ) : Prop where
  ancestors_eq : ∀ id, (h'.ancestors id).1 = (h.ancestors id).1
  own?_eq : ∀ id x, h'.own? id x = if id = owner ∧ x = name then entry else h.own? id x

theorem Rewrites.firstOwn?_eq (hwrites : Rewrites owner name entry h h') {list : List ClassId}
    (hbeside : x = name → owner ∉ list) : h'.firstOwn? x list = h.firstOwn? x list := by
  refine firstOwn?_congr fun a ha => ?_
  rw [hwrites.own?_eq, if_neg]
  rintro ⟨rfl, hx⟩
  exact hbeside hx ha

/-- The owner is listed once, so that its other entries and those around it are what they were. -/
theorem Rewrites.walk_of_comesBy (hwrites : Rewrites owner name entry h h') (hh : h.Sound)
    (hh' : h'.Sound) (hby : h.ComesBy id name owner behind) :
    (h'.walk id name).1 = .ofFirst (entry.or (h.firstOwn? name behind)) := by
  obtain ⟨before, hlist, hfree⟩ := hby
  have honce : (before ++ owner :: behind).Nodup := by
    rw [← hlist, hh.ancestors_fst]
    exact hh.nodup_linearize id
  obtain ⟨-, hrest, hbefore⟩ := List.nodup_append'.mp honce
  obtain ⟨hbehind, -⟩ := List.nodup_cons.mp hrest
  have hfree' : h'.firstOwn? name before = none := by
    rw [hwrites.firstOwn?_eq fun _ hmem => hbefore hmem (by simp)]
    exact firstOwn?_eq_none_iff.mpr hfree
  rw [hh'.walk_eq_of_ancestors ((hwrites.ancestors_eq id).trans hlist)
    (firstOwn?_eq_none_iff.mp hfree'), hwrites.own?_eq, if_pos ⟨rfl, rfl⟩,
    hwrites.firstOwn?_eq fun _ => hbehind]

theorem Sound.walk_fst (hh : h.Sound) (id : ClassId) (name : Symbol) :
    (h.walk id name).1 = .ofFirst (h.firstOwn? name (h.ancestors id).1) := by
  rw [hh.walk_eq, view, first?, hh.ancestors_fst]

/-- A walk for another name, from a record that does not have the owner among its ancestors, or one
that stops before the owner, does not meet the entry. -/
theorem Rewrites.walk_of_not_comesBy (hwrites : Rewrites owner name entry h h') (hh : h.Sound)
    (hh' : h'.Sound) (hnot : x = name → ∀ behind, ¬ h.ComesBy id name owner behind) :
    (h'.walk id x).1 = (h.walk id x).1 := by
  rw [hh'.walk_fst, hh.walk_fst, hwrites.ancestors_eq]
  by_cases hmeets : x = name ∧ owner ∈ (h.ancestors id).1
  · obtain ⟨rfl, hmem⟩ := hmeets
    obtain ⟨before, behind, hlist, hbefore⟩ := List.eq_append_cons_of_mem hmem
    -- The owner is an ancestor, so an entry before it has stopped the walk, and does so again.
    have hstops : (h.firstOwn? x before).isSome = true := by
      rw [Option.isSome_iff_ne_none]
      intro hfree
      exact hnot rfl behind ⟨before, hlist, firstOwn?_eq_none_iff.mp hfree⟩
    rw [hlist, firstOwn?_append, firstOwn?_append, hwrites.firstOwn?_eq fun _ => hbefore,
      Option.or_of_isSome hstops, Option.or_of_isSome hstops]
  · rw [hwrites.firstOwn?_eq fun hx hmem => hmeets ⟨hx, hmem⟩]

/-- The entry that is written stands under its own name, a copy as well. -/
theorem Sound.leaves_of_puts (hh : h.Sound) (hfiled : h.AllFiled) {e : Edit τ} {m : Method τ}
    (hputs : e.Puts h m) : e.slot? = some (m.owner, m.name) ∧ e.Leaves h (some m) := by
  have hwalk {id : ClassId} {name : Symbol} {m : Method τ} (hm : h.view id name = .defined m) :
      (h.walk id name).1 = .defined m := by rw [hh.walk_eq, hm]
  cases hputs with
  | define howner name visibility target flags => exact ⟨rfl, rfl⟩
  | undefine hm => exact ⟨rfl, rfl⟩
  | addAlias hm new => exact ⟨rfl, _, hwalk hm, rfl⟩
  | setVisibility hm visibility =>
    have hname := hfiled.name_eq hm
    exact ⟨by rw [Method.withVisibility, hname]; rfl, _, hwalk hm, hname, rfl⟩

theorem Sound.rewrites_apply (hh : h.Sound) (hfiled : h.AllFiled) {e : Edit τ}
    (hslot : e.slot? = some (owner, name)) {result : Edited} (hok : (e.apply h).1 = .ok result) :
    ∃ entry, e.Leaves h entry ∧ Rewrites owner name entry h (e.apply h).2 := by
  have htable := Edit.table?_of_slot? hslot
  have hsame := (hh.sameBeside_apply htable).linearize_eq
  have hh' := (hh.evolves_table htable).sound
  have hlists (id : ClassId) : ((e.apply h).2.ancestors id).1 = (h.ancestors id).1 := by
    rw [hh'.ancestors_fst, hh.ancestors_fst, hsame]
  cases hh.tableOutcome htable with
  | written hrec hputs heq =>
    obtain ⟨hplace, hleaves⟩ := hh.leaves_of_puts hfiled hputs
    obtain ⟨rfl, rfl⟩ := Prod.mk.inj (Option.some.inj (hslot.symm.trans hplace))
    refine ⟨_, hleaves, hlists, ?_⟩
    rw [heq]
    exact hrec.own?_write hputs
  | removed hremove hm heq =>
    subst hremove
    obtain ⟨rfl, rfl⟩ := Prod.mk.inj (Option.some.inj hslot)
    refine ⟨none, rfl, hlists, ?_⟩
    rw [heq]
    exact hh.own?_erase _ _
  | refused hrec heq =>
    rw [heq] at hok
    cases hok

/-- Whatever was done with a hierarchy, a request about a method table that is granted changes the
own entry of one record for one name, and no superclass, includes or list of ancestors. A walk for
the name that comes by the record ends there if an entry was written, and with the first entry
behind it if one was removed. Every other walk comes to what it did before. -/
theorem write_after {ops : List (Operation τ)} (hops : (empty : Hierarchy τ).Supports ops)
    {e : Edit τ} {owner : ClassId} {name : Symbol} (hslot : e.slot? = some (owner, name))
    {result : Edited} (hok : (e.apply (empty.after ops)).1 = .ok result) :
    let h : Hierarchy τ := empty.after ops
    let h' := (e.apply h).2
    ∃ entry, e.Leaves h entry ∧
      (∀ id x, h'.own? id x = if id = owner ∧ x = name then entry else h.own? id x) ∧
      (∀ id x, (h'.walk id x).1 ≠ (h.walk id x).1 →
        x = name ∧ ∃ behind, h.ComesBy id name owner behind) ∧
      (∀ id behind, h.ComesBy id name owner behind →
        (h'.walk id name).1 = .ofFirst (entry.or (h.firstOwn? name behind))) ∧
      ∀ id, h'.shape? id = h.shape? id ∧ (h'.ancestors id).1 = (h.ancestors id).1 := by
  intro h h'
  have hh : h.Sound := sound_after hops
  have htable := Edit.table?_of_slot? hslot
  have hh' : h'.Sound := (hh.evolves_table htable).sound
  obtain ⟨entry, hleaves, hwrites⟩ := hh.rewrites_apply (allFiled_after hops) hslot hok
  refine ⟨entry, hleaves, hwrites.own?_eq, fun id x hne => ?_, fun id behind hby => ?_, fun id => ?_⟩
  · by_contra hnot
    refine hne (hwrites.walk_of_not_comesBy hh hh' fun hx behind hby => ?_)
    exact hnot ⟨hx, behind, hby⟩
  · exact hwrites.walk_of_comesBy hh hh' hby
  · exact ⟨hh.map_get?_table (fun _ _ _ _ => rfl) htable id, hwrites.ancestors_eq id⟩

/-- Two modules that build on the same one are mixed into a class. One of them has undefined what it
would inherit, which stops the walks that come by it, also from a subclass. When the tombstone is
removed they go on to the shared module. Walks from the other module stay as they are. -/
theorem write_after_remove :
    let run : Symbol := ⟨"run"⟩
    let ops : List (Operation Unit) :=
      [.edit (.create "K" none { isModule := true }), .edit (.create "M" none { isModule := true }),
        .edit (.create "N" none { isModule := true }), .edit (.create "A" none {}),
        .edit (.create "B" (some ⟨3⟩) {}), .edit (.addInclude ⟨1⟩ ⟨0⟩), .edit (.addInclude ⟨2⟩ ⟨0⟩),
        .edit (.addInclude ⟨3⟩ ⟨1⟩), .edit (.addInclude ⟨3⟩ ⟨2⟩), .edit (.define ⟨0⟩ run .pub () {}),
        .edit (.setVisibility ⟨1⟩ run .priv), .edit (.undefine ⟨2⟩ run)]
    let h : Hierarchy Unit := empty.after ops
    let h' := ((Edit.remove ⟨2⟩ run).apply h).2
    h.firstOwn? run (h.ancestors ⟨4⟩).1 = some (.tombstone run ⟨2⟩ h.generation) ∧
      (∃ m, (h'.walk ⟨4⟩ run).1 = .defined m ∧ m.owner = ⟨0⟩) ∧
        (h'.walk ⟨1⟩ run).1 = (h.walk ⟨1⟩ run).1 := by
  intro run ops h h'
  have hops : (empty : Hierarchy Unit).Supports ops := by decide +kernel
  have hentry : (h.own? ⟨2⟩ run).isSome = true := by decide +kernel
  obtain ⟨m, hm⟩ := Option.isSome_iff_exists.mp hentry
  have hok : ((Edit.remove ⟨2⟩ run).apply h).1 = .ok .done := by
    rw [Edit.apply, remove_of_own? hm]
    rfl
  have hby : h.ComesBy ⟨4⟩ run ⟨2⟩ [⟨0⟩, ⟨1⟩] := ⟨[⟨4⟩, ⟨3⟩], by decide +kernel⟩
  have hbehind : (h.firstOwn? run [⟨0⟩, ⟨1⟩]).map (fun m => (m.owner, m.isUndefined)) =
      some (⟨0⟩, false) := by decide +kernel
  obtain ⟨entry, rfl, -, hchanged, hcomes, -⟩ := write_after hops rfl hok
  refine ⟨by decide +kernel, ?_, ?_⟩
  · obtain ⟨m, hm, howner⟩ := Option.map_eq_some_iff.mp hbehind
    obtain ⟨howner, hdefined⟩ := Prod.mk.inj howner
    refine ⟨m, ?_, howner⟩
    rw [hcomes ⟨4⟩ [⟨0⟩, ⟨1⟩] hby, Option.none_or, hm]
    exact Walk.ofFirst_eq_defined_iff.mpr ⟨rfl, hdefined⟩
  · by_contra hne
    obtain ⟨-, behind, before, hlist, -⟩ := hchanged ⟨1⟩ run hne
    have hbeside : (⟨2⟩ : ClassId) ∉ (h.ancestors ⟨1⟩).1 := by decide +kernel
    rw [hlist] at hbeside
    simp at hbeside

end Hierarchy

end LateBinding
