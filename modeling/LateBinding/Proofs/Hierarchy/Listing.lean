import LateBinding.Proofs.Hierarchy.Depth
import Mathlib.Tactic.Choose

namespace LateBinding

open Relation

variable {τ : Type}

namespace Hierarchy

/-- The ancestors of a record, as the recursion along the graph finds them if it ends. It goes no
further from a number that is not in use, or from a record that remembers a list. -/
inductive Lists (h : Hierarchy τ) : ClassId → List ClassId → Prop where
  | unknown {id : ClassId} (hid : h.get? id = none) : Lists h id []
  | recalled {id : ClassId} {list : List ClassId} (hlist : h.recalled? id = some list) :
    Lists h id list
  | computed {id : ClassId} {r : Record τ} {g : ClassId → List ClassId} (hr : h.get? id = some r)
    (hnone : h.recalled? id = none) (hg : ∀ b ∈ r.links, Lists h b (g b)) :
    Lists h id (expand g id r)

/-- One hierarchy comes from another by remembering more of what records list. -/
structure Recollects (h h' : Hierarchy τ) : Prop where
  forget_eq : h'.forget = h.forget
  kept : ∀ {id list}, h.recalled? id = some list → h'.recalled? id = some list
  lists : ∀ {id list}, h'.recalled? id = some list → h.Lists id list

variable {h h' h'' h₀ : Hierarchy τ} {id : ClassId} {list : List ClassId}

theorem recalled?_unknown (hid : h.get? id = none) : h.recalled? id = none := by
  rw [recalled?, hid, Option.bind_none]

theorem recalled?_of_get? {r : Record τ} (hr : h.get? id = some r) :
    h.recalled? id = r.remembered? h.epoch := by
  rw [recalled?, hr, Option.bind_some]

theorem Lists.unique {list' : List ClassId} (hlist : h.Lists id list) (hlist' : h.Lists id list') :
    list = list' := by
  induction hlist generalizing list' with
  | unknown hid =>
    cases hlist' with
    | unknown _ => rfl
    | recalled hrec => rw [recalled?_unknown hid] at hrec; cases hrec
    | computed hr _ _ => rw [hid] at hr; cases hr
  | recalled hrec =>
    cases hlist' with
    | unknown hid => rw [recalled?_unknown hid] at hrec; cases hrec
    | recalled hrec' => exact Option.some.inj (hrec.symm.trans hrec')
    | computed _ hnone _ => rw [hnone] at hrec; cases hrec
  | computed hr hnone _ ih =>
    cases hlist' with
    | unknown hid => rw [hid] at hr; cases hr
    | recalled hrec => rw [hnone] at hrec; cases hrec
    | computed hr' _ hg' =>
      obtain rfl := Option.some.inj (hr'.symm.trans hr)
      exact expand_congr rfl rfl fun b hb => ih b hb (hg' b hb)

/-- What a record lists depends on nothing but what the recursion comes to. -/
theorem Lists.congr {P : ClassId → Prop} (hlist : h.Lists id list) (hid : P id)
    (hshape : ∀ a, P a → h'.shape? a = h.shape? a)
    (hrecalled : ∀ a, P a → h'.recalled? a = h.recalled? a)
    (hclosed : ∀ a b, P a → h.recalled? a = none → h.Edge a b → P b) : h'.Lists id list := by
  induction hlist with
  | unknown hnone =>
    have hsame := hshape _ hid
    rw [shape?, shape?, hnone, Option.map_none, Option.map_eq_none_iff] at hsame
    exact .unknown hsame
  | recalled hlist => exact .recalled (by rw [hrecalled _ hid, hlist])
  | @computed id r g hr hnone _ ih =>
    have hsame := hshape id hid
    rw [shape?, shape?, hr, Option.map_some, Option.map_eq_some_iff] at hsame
    obtain ⟨r', hr', hparts⟩ := hsame
    obtain ⟨hsuper, hincludes⟩ := Prod.mk.inj hparts
    have hlinks : r'.links = r.links := by rw [Record.links, hsuper, hincludes, Record.links]
    rw [← expand_congr hsuper hincludes fun _ _ => rfl]
    refine .computed hr' (by rw [hrecalled id hid, hnone]) fun b hb => ?_
    rw [hlinks] at hb
    exact ih b hb (hclosed id b hid hnone (edge_iff.mpr ⟨r, hr, hb⟩))

theorem links_of_forget_eq {r r' : Record τ} (hforget : r.forget = r'.forget) :
    r'.superclass = r.superclass ∧ r'.includes = r.includes ∧ r'.links = r.links := by
  have hsuper : r'.superclass = r.superclass := (congrArg Record.superclass hforget).symm
  have hincludes : r'.includes = r.includes := (congrArg Record.includes hforget).symm
  exact ⟨hsuper, hincludes, by rw [Record.links, hsuper, hincludes, Record.links]⟩

/-- Remembering more does not change what a record lists. -/
theorem Recollects.lists_iff (hrec : h.Recollects h') : h'.Lists id list ↔ h.Lists id list := by
  constructor
  · intro hlist
    induction hlist with
    | unknown hid =>
      refine .unknown (get?_eq_none_iff.mpr fun hknown => ?_)
      exact get?_eq_none_iff.mp hid ((knows_iff_of_forget_eq hrec.forget_eq).mpr hknown)
    | recalled hlist => exact hrec.lists hlist
    | @computed id r' g hr' hnone _ ih =>
      obtain ⟨r, hr, hforget⟩ := get?_of_forget_eq hrec.forget_eq hr'
      obtain ⟨hsuper, hincludes, hlinks⟩ := links_of_forget_eq hforget
      have hnone' : h.recalled? id = none :=
        Option.eq_none_iff_forall_ne_some.mpr fun list hlist => by
          rw [hrec.kept hlist] at hnone
          cases hnone
      rw [expand_congr hsuper hincludes fun _ _ => rfl]
      exact .computed hr hnone' fun b hb => ih b (hlinks ▸ hb)
  · intro hlist
    induction hlist with
    | unknown hid =>
      refine .unknown (get?_eq_none_iff.mpr fun hknown => ?_)
      exact get?_eq_none_iff.mp hid ((knows_iff_of_forget_eq hrec.forget_eq).mp hknown)
    | recalled hlist => exact .recalled (hrec.kept hlist)
    | @computed id r g hr hnone hg ih =>
      obtain ⟨r', hr'⟩ := ((knows_iff_of_forget_eq hrec.forget_eq).mpr (.of_get? hr)).get?
      obtain ⟨r₀, hr₀, hforget⟩ := get?_of_forget_eq hrec.forget_eq hr'
      obtain rfl := Option.some.inj (hr₀.symm.trans hr)
      obtain ⟨hsuper, hincludes, hlinks⟩ := links_of_forget_eq hforget
      cases hnone' : h'.recalled? id with
      | some list =>
        -- The list has been computed in between.
        rw [(Lists.computed hr hnone hg).unique (hrec.lists hnone')]
        exact .recalled hnone'
      | none =>
        rw [← expand_congr hsuper hincludes fun _ _ => rfl]
        exact .computed hr' hnone' fun b hb => ih b (hlinks ▸ hb)

theorem Recollects.refl (h : Hierarchy τ) : h.Recollects h := ⟨rfl, id, .recalled⟩

theorem Recollects.trans (hfirst : h.Recollects h') (hthen : h'.Recollects h'') :
    h.Recollects h'' where
  forget_eq := hthen.forget_eq.trans hfirst.forget_eq
  kept hlist := hthen.kept (hfirst.kept hlist)
  lists hlist := hfirst.lists_iff.mp (hthen.lists hlist)

theorem Lists.recollects_remember (hlist : h.Lists id list) :
    h.Recollects (h.remember id list) where
  forget_eq := forget_remember h id list
  kept {x list'} hx := by
    rw [recalled?_remember]
    split
    · rename_i hid
      subst hid
      obtain ⟨r, hr, -⟩ := Option.bind_eq_some_iff.mp hx
      rw [hr, Option.map_some, hlist.unique (.recalled hx)]
    · exact hx
  lists {x list'} hx := by
    rw [recalled?_remember] at hx
    split at hx
    · rename_i hid
      subst hid
      obtain ⟨r, -, rfl⟩ := Option.map_eq_some_iff.mp hx
      exact hlist
    · exact .recalled hx

private theorem mixInAllKept_lists {f : Hierarchy τ → ClassId → Option (List ClassId × Hierarchy τ)}
    (hf : ∀ {h m list h'}, f h m = some (list, h') → h.Lists m list ∧ h.Recollects h')
    {inherited ms listed own : List ClassId}
    (hx : mixInAllKept f inherited ms listed h = some (own, h')) :
    h.Recollects h' ∧ (∀ m ∈ ms, ∃ list, h.Lists m list) ∧
      ∀ g : ClassId → List ClassId, (∀ m ∈ ms, h.Lists m (g m)) →
        own = ms.foldl (fun listed m => mixIn inherited listed (g m)) listed := by
  induction ms generalizing h listed with
  | nil =>
    obtain ⟨rfl, rfl⟩ := Prod.mk.inj (Option.some.inj hx)
    exact ⟨.refl h, by simp, fun _ _ => rfl⟩
  | cons m ms ih =>
    rw [mixInAllKept] at hx
    obtain ⟨⟨ancestors, h₁⟩, hm, hrest⟩ := Option.bind_eq_some_iff.mp hx
    obtain ⟨hlist, hrec₁⟩ := hf hm
    obtain ⟨hrec₂, hlists, hown⟩ := ih hrest
    refine ⟨hrec₁.trans hrec₂, fun x hx => ?_, fun g hg => ?_⟩
    · rcases List.mem_cons.mp hx with rfl | hmem
      · exact ⟨ancestors, hlist⟩
      · obtain ⟨list, hlist⟩ := hlists x hmem
        exact ⟨list, hrec₁.lists_iff.mp hlist⟩
    · rw [List.foldl_cons, (hg m (by simp)).unique hlist]
      exact hown g fun x hx => hrec₁.lists_iff.mpr (hg x (by simp [hx]))

private theorem superclass_lists {f : Hierarchy τ → ClassId → Option (List ClassId × Hierarchy τ)}
    (hf : ∀ {m list h'}, f h m = some (list, h') → h.Lists m list ∧ h.Recollects h')
    {superclass : Option ClassId} {inherited : List ClassId}
    (hx : superclass.elim (some ([], h)) (f h) = some (inherited, h')) :
    h.Recollects h' ∧ (∀ parent ∈ superclass, ∃ list, h.Lists parent list) ∧
      ∀ g : ClassId → List ClassId, (∀ parent ∈ superclass, h.Lists parent (g parent)) →
        inherited = superclass.elim [] g := by
  cases superclass with
  | none =>
    obtain ⟨rfl, rfl⟩ := Prod.mk.inj (Option.some.inj hx)
    exact ⟨.refl h, by simp, fun _ _ => rfl⟩
  | some parent =>
    obtain ⟨hlist, hrec⟩ := hf hx
    exact ⟨hrec, by simpa using ⟨inherited, hlist⟩, fun g hg => hlist.unique (hg parent rfl)⟩

theorem lists_of_ancestorsWithin {depth : Nat} (hx : ancestorsWithin depth h id = some (list, h')) :
    h.Lists id list ∧ h.Recollects h' := by
  induction depth generalizing h h' id list with
  | zero => cases hx
  | succ depth ih =>
    cases hr : h.get? id with
    | none =>
      rw [ancestorsWithin_unknown hr] at hx
      obtain ⟨rfl, rfl⟩ := Prod.mk.inj (Option.some.inj hx)
      exact ⟨.unknown hr, .refl h⟩
    | some r =>
      cases hmemo : r.remembered? h.epoch with
      | some list' =>
        simp only [ancestorsWithin, hr, hmemo, Option.some.injEq, Prod.mk.injEq] at hx
        obtain ⟨rfl, rfl⟩ := hx
        exact ⟨.recalled (by rw [recalled?_of_get? hr, hmemo]), .refl h⟩
      | none =>
        rw [ancestorsWithin_succ hr hmemo] at hx
        obtain ⟨⟨inherited, h₁⟩, hsuper, hrest⟩ := Option.bind_eq_some_iff.mp hx
        obtain ⟨⟨own, h₂⟩, hmixed, heq⟩ := Option.map_eq_some_iff.mp hrest
        obtain ⟨rfl, rfl⟩ := Prod.mk.inj heq
        obtain ⟨hrec₁, hparent, hinherited⟩ := superclass_lists ih hsuper
        obtain ⟨hrec₂, hmodules, hown⟩ := mixInAllKept_lists ih hmixed
        -- What was remembered on the way changes no list, so all links can be seen from the beginning.
        have hlisted : ∀ b ∈ r.links, ∃ list, h.Lists b list := by
          intro b hb
          rcases List.mem_append.mp hb with hb | hb
          · exact hparent b (Option.mem_toList.mp hb)
          · obtain ⟨list, hlist⟩ := hmodules b (List.mem_reverse.mpr hb)
            exact ⟨list, hrec₁.lists_iff.mp hlist⟩
        choose! g hg using hlisted
        have hinherited := hinherited g fun b hb =>
          hg b (List.mem_append_left _ (Option.mem_toList.mpr hb))
        have hown := hown g fun b hb => hrec₁.lists_iff.mpr
          (hg b (List.mem_append_right _ (List.mem_reverse.mp hb)))
        have hlist : h.Lists id (own ++ inherited) := by
          have hexpand : expand g id r = own ++ inherited := by rw [expand, hown, hinherited]
          rw [← hexpand]
          exact .computed hr (by rw [recalled?_of_get? hr, hmemo]) hg
        have hrec := hrec₁.trans hrec₂
        exact ⟨hlist, hrec.trans (hrec.lists_iff.mpr hlist).recollects_remember⟩

open Classical in
/-- The number of records that steps of a kind lead to from a record, the record itself included. -/
noncomputable def span (h : Hierarchy τ) (step : ClassId → ClassId → Prop) (a : ClassId) : Nat :=
  (h.ids.toFinset.filter (ReflTransGen step a)).card

theorem span_le_size (step : ClassId → ClassId → Prop) (a : ClassId) : h.span step a ≤ h.size :=
  calc h.span step a
    _ ≤ h.ids.toFinset.card := by classical exact Finset.card_filter_le _ _
    _ ≤ h.ids.length := List.toFinset_card_le h.ids
    _ = h.size := by simp [ids]

/-- A step that cannot be taken back leaves fewer records. -/
theorem span_lt {step : ClassId → ClassId → Prop} {a b : ClassId} (ha : h.Knows a)
    (hab : step a b) (hback : ¬ ReflTransGen step b a) : h.span step b < h.span step a := by
  classical
  refine Finset.card_lt_card (Finset.ssubset_iff_subset_ne.mpr ⟨fun c hc => ?_, fun heq => ?_⟩)
  · obtain ⟨hknown, hbc⟩ := Finset.mem_filter.mp hc
    exact Finset.mem_filter.mpr ⟨hknown, hbc.head hab⟩
  · have hmem : a ∈ h.ids.toFinset.filter (ReflTransGen step a) := by simp [ha, ReflTransGen.refl]
    rw [← heq] at hmem
    exact hback (Finset.mem_filter.mp hmem).2

/-- The recursion goes on from one record to another. -/
def Unfolds (h : Hierarchy τ) (a b : ClassId) : Prop := h.recalled? a = none ∧ h.Edge a b

/-- A recursion that ends never comes back to where it was. -/
theorem Lists.acyclic (hlist : h.Lists id list) : ¬ TransGen h.Unfolds id id := by
  intro hcycle
  induction hlist with
  | unknown hid =>
    obtain ⟨b, ⟨-, hedge⟩, -⟩ := TransGen.head'_iff.mp hcycle
    obtain ⟨r, hr, -⟩ := edge_iff.mp hedge
    rw [hid] at hr
    cases hr
  | recalled hrec =>
    obtain ⟨b, ⟨hnone, -⟩, -⟩ := TransGen.head'_iff.mp hcycle
    rw [hnone] at hrec
    cases hrec
  | computed hr _ _ ih =>
    obtain ⟨b, hstep, hback⟩ := TransGen.head'_iff.mp hcycle
    obtain ⟨r', hr', hb⟩ := edge_iff.mp hstep.2
    obtain rfl := Option.some.inj (hr'.symm.trans hr)
    exact ih b hb (.tail' hback hstep)

theorem Recollects.get?_unknown (hrec : h₀.Recollects h) (hid : h₀.get? id = none) :
    h.get? id = none :=
  get?_eq_none_iff.mpr fun hknown =>
    get?_eq_none_iff.mp hid ((knows_iff_of_forget_eq hrec.forget_eq).mp hknown)

/-- A depth beyond the number of records that the recursion can come to is enough. -/
theorem Lists.ancestorsWithin_eq (hlist : h₀.Lists id list) {depth : Nat}
    (hrec : h₀.Recollects h) (hdepth : h₀.span h₀.Unfolds id < depth) :
    ∃ h', ancestorsWithin depth h id = some (list, h') ∧ h₀.Recollects h' := by
  suffices hends : ∃ h', ancestorsWithin depth h id = some (list, h') by
    obtain ⟨h', heq⟩ := hends
    exact ⟨h', heq, hrec.trans (lists_of_ancestorsWithin heq).2⟩
  have hself := hlist
  -- The graph may have cycles elsewhere, so the induction is on what the recursion itself comes to.
  induction hlist generalizing depth h with
  | unknown hid =>
    obtain ⟨depth, rfl⟩ : ∃ d, depth = d + 1 := ⟨depth - 1, by omega⟩
    exact ⟨h, ancestorsWithin_unknown (hrec.get?_unknown hid) depth⟩
  | @recalled id list hlist =>
    obtain ⟨depth, rfl⟩ : ∃ d, depth = d + 1 := ⟨depth - 1, by omega⟩
    exact ⟨h, ancestorsWithin_of_recalled (hrec.kept hlist) depth⟩
  | @computed id r₀ g hr₀ hnone hg ih =>
    obtain ⟨depth, rfl⟩ : ∃ d, depth = d + 1 := ⟨depth - 1, by omega⟩
    cases hrecalled : h.recalled? id with
    | some list =>
      rw [hself.unique (hrec.lists hrecalled)]
      exact ⟨h, ancestorsWithin_of_recalled hrecalled depth⟩
    | none =>
      obtain ⟨r, hr⟩ := ((knows_iff_of_forget_eq hrec.forget_eq).mpr (.of_get? hr₀)).get?
      obtain ⟨r₁, hr₁, hforget⟩ := get?_of_forget_eq hrec.forget_eq hr
      obtain rfl := Option.some.inj (hr₁.symm.trans hr₀)
      obtain ⟨hsuper, hincludes, -⟩ := links_of_forget_eq hforget
      have hbelow {b : ClassId} (hb : b ∈ r₁.links) {h₁ : Hierarchy τ} (hrec₁ : h₀.Recollects h₁) :
          ∃ h', ancestorsWithin depth h₁ b = some (g b, h') ∧ h₀.Recollects h' := by
        have hstep : h₀.Unfolds id b := ⟨hnone, edge_iff.mpr ⟨r₁, hr₀, hb⟩⟩
        have hlt := span_lt (.of_get? hr₀) hstep fun hback => hself.acyclic (.head' hstep hback)
        have hbound : h₀.span h₀.Unfolds b < depth := by omega
        obtain ⟨h', heq⟩ := ih b hb hrec₁ hbound (hg b hb)
        exact ⟨h', heq, hrec₁.trans (lists_of_ancestorsWithin heq).2⟩
      obtain ⟨h₁, hparent, hrec₁⟩ : ∃ h₁,
          r.superclass.elim (some ([], h)) (ancestorsWithin depth h) =
            some (r.superclass.elim [] g, h₁) ∧ h₀.Recollects h₁ := by
        rw [hsuper]
        cases hs : r₁.superclass with
        | none => exact ⟨h, rfl, hrec⟩
        | some parent => exact hbelow (by simp [Record.links, hs]) hrec
      obtain ⟨h₂, hmixed, -⟩ := mixInAllKept_eq_foldl (f := ancestorsWithin depth)
        (r.superclass.elim [] g) r.includes.reverse
        (fun m hm _ hrec' =>
          hbelow (by simpa [Record.links, ← hincludes] using Or.inr hm) hrec') [id] hrec₁
      have hmemo : r.remembered? h.epoch = none := by rw [← recalled?_of_get? hr, hrecalled]
      have hexpand : expand g id r = expand g id r₁ :=
        expand_congr hsuper hincludes fun _ _ => rfl
      rw [← hexpand]
      exact ⟨_, ancestorsWithin_of_links hr hmemo hparent hmixed⟩

theorem Lists.ancestors_eq (hlist : h.Lists id list) :
    ∃ h', h.ancestors id = (list, h') ∧ h.Recollects h' := by
  obtain ⟨h', heq, hrec⟩ :=
    hlist.ancestorsWithin_eq (.refl h) (Nat.lt_succ_of_le (span_le_size _ id))
  exact ⟨h', by rw [ancestors, heq, Option.getD_some], hrec⟩

/-- Where the recursion has no end, nothing is listed and nothing changes. -/
theorem ancestors_of_not_lists (hnone : ∀ list, ¬ h.Lists id list) : h.ancestors id = ([], h) := by
  cases heq : ancestorsWithin (h.size + 1) h id with
  | none => rw [ancestors, heq, Option.getD_none]
  | some x => exact absurd (lists_of_ancestorsWithin heq).1 (hnone x.1)

/-- Asking for ancestors changes nothing but what is remembered, and leaves every list as it is. -/
theorem recollects_ancestors (h : Hierarchy τ) (id : ClassId) :
    h.Recollects (h.ancestors id).2 := by
  by_cases hlists : ∃ list, h.Lists id list
  · obtain ⟨list, hlist⟩ := hlists
    obtain ⟨h', heq, hrec⟩ := hlist.ancestors_eq
    rwa [heq]
  · rw [ancestors_of_not_lists (not_exists.mp hlists)]
    exact .refl h

theorem forget_ancestors (h : Hierarchy τ) (id : ClassId) : (h.ancestors id).2.forget = h.forget :=
  (h.recollects_ancestors id).forget_eq

/-- Records that list the same have the same ancestors. -/
theorem ancestors_fst_congr {id' : ClassId} (hlists : ∀ list, h'.Lists id' list ↔ h.Lists id list) :
    (h'.ancestors id').1 = (h.ancestors id).1 := by
  by_cases hsome : ∃ list, h.Lists id list
  · obtain ⟨list, hlist⟩ := hsome
    obtain ⟨h₁, heq, -⟩ := hlist.ancestors_eq
    obtain ⟨h₂, heq', -⟩ := ((hlists list).mpr hlist).ancestors_eq
    rw [heq, heq']
  · have hnone := not_exists.mp hsome
    rw [ancestors_of_not_lists hnone,
      ancestors_of_not_lists fun list => mt (hlists list).mp (hnone list)]

/-- A walk comes to the first entry among the ancestors, whatever is remembered. -/
theorem walk_fst (h : Hierarchy τ) (id : ClassId) (name : Symbol) :
    (h.walk id name).1 = .ofFirst (h.firstOwn? name (h.ancestors id).1) := by
  have hown : (h.ancestors id).2.firstOwn? name (h.ancestors id).1 =
      h.firstOwn? name (h.ancestors id).1 :=
    firstOwn?_congr fun x _ => own?_of_forget_eq (h.forget_ancestors id) x name
  exact congrArg Walk.ofFirst hown

end Hierarchy

end LateBinding
