import LateBinding.Proofs.Hierarchy.Linearize

namespace LateBinding

open Relation

variable {τ : Type}

/-- A record without the list that it remembers. -/
def Record.forget (r : Record τ) : Record τ := { r with memo := none }

namespace Hierarchy

/-- A hierarchy without the lists that its records remember. -/
def forget (h : Hierarchy τ) : Hierarchy τ := { h with records := h.records.map Record.forget }

/-- The list that a record remembers from the present epoch. -/
def recalled? (h : Hierarchy τ) (id : ClassId) : Option (List ClassId) :=
  (h.get? id).bind fun r => r.remembered? h.epoch

/-- The graph is stratified, what is remembered is right, and what is referred to exists. -/
structure Sound (h : Hierarchy τ) : Prop extends Stratified h where
  memo_epoch_le : ∀ {id r m}, h.get? id = some r → r.memo = some m → m.epoch ≤ h.epoch
  recalled_eq : ∀ {id list}, h.recalled? id = some list → list = h.linearize id
  stamp_le : ∀ {id g}, h.stampOf? id = some g → g ≤ h.generation
  metaclass_known : ∀ {id r m}, h.get? id = some r → r.metaclass = some m → h.Knows m
  singleton_known : ∀ {o s}, h.singletonOf? o = some s → h.Knows s

/-- One hierarchy comes from another by remembering more. -/
structure Recalls (h h' : Hierarchy τ) : Prop where
  forget_eq : h'.forget = h.forget
  kept : ∀ {id list}, h.recalled? id = some list → h'.recalled? id = some list
  sound : h'.Sound

variable {h h' h'' : Hierarchy τ}

theorem ext_get? (hget : ∀ id, h'.get? id = h.get? id) (hgeneration : h'.generation = h.generation)
    (hepoch : h'.epoch = h.epoch) (hobjects : h'.objectSingletons = h.objectSingletons) :
    h' = h := by
  obtain ⟨records, generation, epoch, objects⟩ := h
  obtain ⟨records', generation', epoch', objects'⟩ := h'
  have hrecords : records' = records := Array.ext_getElem? fun i => hget ⟨i⟩
  simp only at hgeneration hepoch hobjects
  rw [hrecords, hgeneration, hepoch, hobjects]

/-- Where two hierarchies agree on a part of their records, both have a record or neither has. -/
theorem get?_of_map_eq {α : Type} {f : Record τ → α} {id : ClassId} {r' : Record τ}
    (hmap : (h'.get? id).map f = (h.get? id).map f) (hr' : h'.get? id = some r') :
    ∃ r, h.get? id = some r ∧ f r = f r' := by
  rw [hr', Option.map_some, eq_comm, Option.map_eq_some_iff] at hmap
  exact hmap

theorem get?_forget (h : Hierarchy τ) (id : ClassId) :
    h.forget.get? id = (h.get? id).map Record.forget := by
  simp [forget, get?]

theorem map_get?_of_forget_eq {α : Type} {f : Record τ → α} (hf : ∀ r, f r.forget = f r)
    (hforget : h'.forget = h.forget) (id : ClassId) : (h'.get? id).map f = (h.get? id).map f := by
  have hmap (h : Hierarchy τ) : (h.get? id).map f = (h.forget.get? id).map f := by
    simp [get?_forget, Function.comp_def, hf]
  rw [hmap, hforget, ← hmap]

theorem shape?_of_forget_eq (hforget : h'.forget = h.forget) (id : ClassId) :
    h'.shape? id = h.shape? id :=
  map_get?_of_forget_eq (fun _ => rfl) hforget id

theorem stampOf?_of_forget_eq (hforget : h'.forget = h.forget) (id : ClassId) :
    h'.stampOf? id = h.stampOf? id :=
  map_get?_of_forget_eq (fun _ => rfl) hforget id

theorem size_of_forget_eq (hforget : h'.forget = h.forget) : h'.size = h.size := by
  have hsize := congrArg size hforget
  simpa [forget, size] using hsize

theorem generation_of_forget_eq (hforget : h'.forget = h.forget) :
    h'.generation = h.generation :=
  congrArg (fun h => h.generation) hforget

theorem epoch_of_forget_eq (hforget : h'.forget = h.forget) : h'.epoch = h.epoch :=
  congrArg (fun h => h.epoch) hforget

theorem objectSingletons_of_forget_eq (hforget : h'.forget = h.forget) :
    h'.objectSingletons = h.objectSingletons :=
  congrArg (fun h => h.objectSingletons) hforget

theorem get?_of_forget_eq (hforget : h'.forget = h.forget) {id : ClassId} {r' : Record τ}
    (hr' : h'.get? id = some r') : ∃ r, h.get? id = some r ∧ r.forget = r'.forget :=
  get?_of_map_eq (map_get?_of_forget_eq (fun _ => rfl) hforget id) hr'

theorem knows_iff_of_forget_eq (hforget : h'.forget = h.forget) {id : ClassId} :
    h'.Knows id ↔ h.Knows id := by
  simp only [Knows, size_of_forget_eq hforget]

theorem Stratified.of_forget_eq (hh : h.Stratified) (hforget : h'.forget = h.forget) :
    h'.Stratified := by
  refine hh.mono (size_of_forget_eq hforget).ge fun a b hab => ?_
  exact (edge_congr (shape?_of_forget_eq hforget a)).mp hab

theorem Stratified.linearize_of_forget_eq (hh : h.Stratified) (hforget : h'.forget = h.forget)
    (id : ClassId) : h'.linearize id = h.linearize id :=
  hh.linearize_congr (hh.of_forget_eq hforget) (P := fun _ => True)
    (fun a _ => shape?_of_forget_eq hforget a) (fun _ _ _ _ => trivial) trivial

theorem Sound.recalls_refl (hh : h.Sound) : h.Recalls h := ⟨rfl, id, hh⟩

theorem Recalls.trans (hfirst : h.Recalls h') (hthen : h'.Recalls h'') : h.Recalls h'' where
  forget_eq := hthen.forget_eq.trans hfirst.forget_eq
  kept hlist := hthen.kept (hfirst.kept hlist)
  sound := hthen.sound

theorem recalled?_remember (h : Hierarchy τ) (id x : ClassId) (list : List ClassId) :
    (h.remember id list).recalled? x =
      if id = x then (h.get? x).map fun _ => list else h.recalled? x := by
  have hepoch : (h.remember id list).epoch = h.epoch := rfl
  simp only [recalled?, hepoch]
  rw [remember, get?_modify]
  split
  · cases h.get? x <;> simp [Record.remembered?]
  · rfl

theorem forget_remember (h : Hierarchy τ) (id : ClassId) (list : List ClassId) :
    (h.remember id list).forget = h.forget := by
  refine ext_get? (fun x => ?_) rfl rfl rfl
  rw [get?_forget, get?_forget, remember, get?_modify]
  split
  · cases h.get? x <;> rfl
  · rfl

/-- Remembering the right list keeps a hierarchy sound. -/
theorem Sound.recalls_remember (hh : h.Sound) (id : ClassId) :
    h.Recalls (h.remember id (h.linearize id)) := by
  have hforget := forget_remember h id (h.linearize id)
  have hstratified := hh.toStratified.of_forget_eq hforget
  have hlist := hh.toStratified.linearize_of_forget_eq hforget
  refine ⟨hforget, fun {x list} hx => ?_, hstratified, ?_, ?_, ?_, ?_, ?_⟩
  · rw [recalled?_remember]
    split
    · rename_i hid
      subst hid
      obtain ⟨r, hr, -⟩ := Option.bind_eq_some_iff.mp hx
      rw [hr, Option.map_some, hh.recalled_eq hx]
    · exact hx
  · intro x r m hr hm
    rw [remember, get?_modify] at hr
    split at hr
    · obtain ⟨r, -, rfl⟩ := Option.map_eq_some_iff.mp hr
      obtain rfl : (⟨h.epoch, h.linearize id⟩ : AncestorMemo) = m := Option.some.inj hm
      exact Nat.le_refl _
    · exact hh.memo_epoch_le hr hm
  · intro x list hx
    rw [recalled?_remember] at hx
    rw [hlist]
    split at hx
    · rename_i hid
      subst hid
      obtain ⟨r, -, rfl⟩ := Option.map_eq_some_iff.mp hx
      rfl
    · exact hh.recalled_eq hx
  · intro x g hg
    rw [stampOf?_of_forget_eq hforget] at hg
    exact hh.stamp_le hg
  · intro x r m hr hm
    obtain ⟨r₀, hr₀, hsame⟩ := get?_of_forget_eq hforget hr
    have hm₀ : r₀.metaclass = some m := (congrArg Record.metaclass hsame).trans hm
    exact (knows_iff_of_forget_eq hforget).mpr (hh.metaclass_known hr₀ hm₀)
  · intro o s hs
    exact (knows_iff_of_forget_eq hforget).mpr (hh.singleton_known hs)

theorem Recalls.linearize_eq (hrec : h.Recalls h') (hh : h.Stratified) (id : ClassId) :
    h'.linearize id = h.linearize id :=
  hh.linearize_of_forget_eq hrec.forget_eq id

/-- Mixing in several lists, as long as each hierarchy on the way has a property on which the lists
depend. -/
theorem mixInAllKept_eq_foldl {I : Hierarchy τ → Prop}
    {f : Hierarchy τ → ClassId → Option (List ClassId × Hierarchy τ)}
    {g : ClassId → List ClassId} (inherited ms : List ClassId)
    (hf : ∀ m ∈ ms, ∀ h, I h → ∃ h', f h m = some (g m, h') ∧ I h')
    (listed : List ClassId) (hI : I h) :
    ∃ h', mixInAllKept f inherited ms listed h =
        some (ms.foldl (fun listed m => mixIn inherited listed (g m)) listed, h') ∧ I h' := by
  induction ms generalizing listed h with
  | nil => exact ⟨h, rfl, hI⟩
  | cons m ms ih =>
    obtain ⟨h₁, hm, hI₁⟩ := hf m (by simp) h hI
    obtain ⟨h₂, hms, hI₂⟩ := ih (fun m hmem => hf m (by simp [hmem]))
      (mixIn inherited listed (g m)) hI₁
    refine ⟨h₂, ?_, hI₂⟩
    simpa only [mixInAllKept, hm, Option.bind_eq_bind, Option.bind_some, List.foldl_cons] using hms

theorem ancestorsWithin_of_links {depth : Nat} {a : ClassId} {r : Record τ}
    {inherited listed : List ClassId} (hr : h.get? a = some r)
    (hmemo : r.remembered? h.epoch = none)
    (hsuper : r.superclass.elim (some ([], h)) (ancestorsWithin depth h) = some (inherited, h'))
    (hmixed : mixInAllKept (ancestorsWithin depth) inherited r.includes.reverse [a] h' =
      some (listed, h'')) :
    ancestorsWithin (depth + 1) h a =
      some (listed ++ inherited, h''.remember a (listed ++ inherited)) := by
  rw [ancestorsWithin, hr]
  cases hs : r.superclass with
  | none =>
    rw [hs, Option.elim_none, Option.some.injEq, Prod.mk.injEq] at hsuper
    obtain ⟨rfl, rfl⟩ := hsuper
    simp [hmemo, hs, hmixed]
  | some parent =>
    rw [hs, Option.elim_some] at hsuper
    simp [hmemo, hs, hsuper, hmixed]

/-- The list that is computed with remembered lists is that of the graph alone, and only remembered
lists change on the way. -/
theorem Sound.ancestorsWithin_eq {h₀ : Hierarchy τ} (hh : h₀.Sound) {depth : Nat} {a : ClassId}
    (hrec : h₀.Recalls h) (hdepth : h₀.height a < depth) :
    ∃ h', ancestorsWithin depth h a = some (h₀.linearize a, h') ∧ h.Recalls h' ∧
      (h.Knows a → h'.recalled? a = some (h₀.linearize a)) := by
  induction a using hh.induction generalizing depth h with
  | _ a ih =>
    obtain ⟨depth, rfl⟩ : ∃ d, depth = d + 1 := ⟨depth - 1, by omega⟩
    have hlist := hrec.linearize_eq hh.toStratified a
    cases hr : h.get? a with
    | none =>
      refine ⟨h, ?_, hrec.sound.recalls_refl, fun hknown => absurd hknown (get?_eq_none_iff.mp hr)⟩
      rw [ancestorsWithin_unknown hr, ← hlist, linearize_unknown hr]
    | some r =>
      cases hmemo : r.remembered? h.epoch with
      | some list =>
        have hrecalled : h.recalled? a = some list := by simp [recalled?, hr, hmemo]
        have heq := hrec.sound.recalled_eq hrecalled
        refine ⟨h, ?_, hrec.sound.recalls_refl, fun _ => ?_⟩
        · simp [ancestorsWithin, hr, hmemo, heq, hlist]
        · rw [hrecalled, heq, hlist]
      | none =>
        -- The links are asked one after the other, each in the hierarchy that the one before has left.
        have hbelow {b : ClassId} (hb : b ∈ r.links) (h₁ : Hierarchy τ) (hrec₁ : h.Recalls h₁) :
            ∃ h', ancestorsWithin depth h₁ b = some (h₀.linearize b, h') ∧ h.Recalls h' := by
          have hab : h₀.Edge a b :=
            (edge_congr (shape?_of_forget_eq hrec.forget_eq a)).mp (edge_iff.mpr ⟨r, hr, hb⟩)
          have hlt := hh.height_lt hab
          obtain ⟨h', heq, hrec', -⟩ :=
            ih b hab (hrec.trans hrec₁) (show h₀.height b < depth by omega)
          exact ⟨h', heq, hrec₁.trans hrec'⟩
        obtain ⟨h₁, hsuper, hrec₁⟩ : ∃ h₁,
            r.superclass.elim (some ([], h)) (ancestorsWithin depth h) =
              some (r.superclass.elim [] h₀.linearize, h₁) ∧ h.Recalls h₁ := by
          cases hs : r.superclass with
          | none => exact ⟨h, rfl, hrec.sound.recalls_refl⟩
          | some parent => exact hbelow (by simp [Record.links, hs]) h hrec.sound.recalls_refl
        obtain ⟨h₂, hmixed, hrec₂⟩ := mixInAllKept_eq_foldl (f := ancestorsWithin depth)
          (r.superclass.elim [] h₀.linearize) r.includes.reverse
          (fun m hm => hbelow (by simpa [Record.links] using Or.inr hm)) [a] hrec₁
        have hrec₀ := hrec.trans hrec₂
        have hexpand : expand h₀.linearize a r = h₂.linearize a := by
          rw [hrec₀.linearize_eq hh.toStratified, ← hlist, hrec.sound.linearize_of_get? hr]
          exact (expand_congr rfl rfl fun b _ => hrec.linearize_eq hh.toStratified b).symm
        have heq : h₂.linearize a = h₀.linearize a := hrec₀.linearize_eq hh.toStratified a
        refine ⟨h₂.remember a (h₂.linearize a), ?_,
          hrec₂.trans (hrec₂.sound.recalls_remember a), fun hknown => ?_⟩
        · rw [ancestorsWithin_of_links hr hmemo hsuper hmixed, ← heq, ← hexpand]
          rfl
        · obtain ⟨r₂, hr₂⟩ := Knows.get? ((knows_iff_of_forget_eq hrec₂.forget_eq).mpr hknown)
          rw [recalled?_remember, if_pos rfl, hr₂, Option.map_some, heq]

private theorem Sound.ancestors_spec (hh : h.Sound) (a : ClassId) :
    ∃ h', h.ancestors a = (h.linearize a, h') ∧ h.Recalls h' ∧
      (h.Knows a → h'.recalled? a = some (h.linearize a)) := by
  have hheight := h.height_le_size a
  obtain ⟨h', heq, hrec, hrecalled⟩ := hh.ancestorsWithin_eq hh.recalls_refl
    (show h.height a < h.size + 1 by omega)
  exact ⟨h', by simp [ancestors, heq], hrec, hrecalled⟩

/-- The ancestors of a record are those by the graph alone, whatever is remembered. -/
theorem Sound.ancestors_fst (hh : h.Sound) (a : ClassId) :
    (h.ancestors a).1 = h.linearize a := by
  obtain ⟨h', heq, -⟩ := hh.ancestors_spec a
  rw [heq]

/-- Asking for ancestors changes nothing but what is remembered. -/
theorem Sound.recalls_ancestors (hh : h.Sound) (a : ClassId) :
    h.Recalls (h.ancestors a).2 := by
  obtain ⟨h', heq, hrec, -⟩ := hh.ancestors_spec a
  rwa [heq]

theorem Sound.recalled?_ancestors (hh : h.Sound) {a : ClassId} (ha : h.Knows a) :
    (h.ancestors a).2.recalled? a = some (h.linearize a) := by
  obtain ⟨h', heq, -, hrecalled⟩ := hh.ancestors_spec a
  rw [heq]
  exact hrecalled ha

theorem ancestorsWithin_of_recalled {a : ClassId} {list : List ClassId}
    (hlist : h.recalled? a = some list) (depth : Nat) :
    ancestorsWithin (depth + 1) h a = some (list, h) := by
  obtain ⟨r, hr, hmemo⟩ := Option.bind_eq_some_iff.mp hlist
  simp [ancestorsWithin, hr, hmemo]

/-- Asking for a list that is remembered changes nothing at all. -/
theorem ancestors_of_recalled {a : ClassId} {list : List ClassId}
    (hlist : h.recalled? a = some list) : h.ancestors a = (list, h) := by
  rw [ancestors, ancestorsWithin_of_recalled hlist, Option.getD_some]

theorem Sound.ancestors_ancestors (hh : h.Sound) (a : ClassId) :
    ((h.ancestors a).2.ancestors a).2 = (h.ancestors a).2 := by
  by_cases ha : h.Knows a
  · rw [ancestors_of_recalled (hh.recalled?_ancestors ha)]
  · have hnone := get?_eq_none_iff.mpr ha
    rw [ancestors_unknown hnone]
    exact congrArg Prod.snd (ancestors_unknown hnone)

end Hierarchy

end LateBinding
