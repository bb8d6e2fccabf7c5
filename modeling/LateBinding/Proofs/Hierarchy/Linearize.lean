import LateBinding.Proofs.Hierarchy.Graph

namespace LateBinding

namespace Hierarchy

open Relation

variable {τ : Type} {h h' : Hierarchy τ}

/-- The ancestors of a record by the ancestors of those on which it builds directly. -/
def expand (ancestorsOf : ClassId → List ClassId) (id : ClassId) (r : Record τ) : List ClassId :=
  let inherited := r.superclass.elim [] ancestorsOf
  r.includes.reverse.foldl (fun listed m => mixIn inherited listed (ancestorsOf m)) [id] ++ inherited

private theorem mixInAll_eq_foldl {f : ClassId → Option (List ClassId)}
    {g : ClassId → List ClassId} {inherited ms : List ClassId}
    (hf : ∀ m ∈ ms, f m = some (g m)) (listed : List ClassId) :
    mixInAll f inherited ms listed =
      some (ms.foldl (fun listed m => mixIn inherited listed (g m)) listed) := by
  induction ms generalizing listed with
  | nil => rfl
  | cons m ms ih =>
    have hm : f m = some (g m) := hf m (by simp)
    simp only [mixInAll, hm, Option.bind_eq_bind, Option.bind_some, List.foldl_cons]
    exact ih (fun m hmem => hf m (by simp [hmem])) _

theorem linearizeWithin_of_links {depth : Nat} {id : ClassId} {r : Record τ}
    {g : ClassId → List ClassId} (hr : h.get? id = some r)
    (hg : ∀ b ∈ r.links, h.linearizeWithin depth b = some (g b)) :
    h.linearizeWithin (depth + 1) id = some (expand g id r) := by
  have hmixed (inherited : List ClassId) :
      mixInAll (h.linearizeWithin depth) inherited r.includes.reverse [id] =
        some (r.includes.reverse.foldl (fun listed m => mixIn inherited listed (g m)) [id]) :=
    mixInAll_eq_foldl (fun m hm => hg m (by simpa [Record.links] using Or.inr hm)) [id]
  rw [linearizeWithin, hr]
  cases hsuper : r.superclass with
  | none => simp [expand, hsuper, hmixed]
  | some parent =>
    have hparent : h.linearizeWithin depth parent = some (g parent) :=
      hg parent (by simp [Record.links, hsuper])
    simp [expand, hsuper, hparent, hmixed]

theorem linearize_unknown {id : ClassId} (hid : h.get? id = none) : h.linearize id = [] := by
  simp [linearize, linearizeWithin, hid]

/-- Any bound above the height of a record gives the same list, which satisfies the recursion. -/
theorem Stratified.linearizeWithin_eq (hh : h.Stratified) {depth : Nat} {a : ClassId}
    (hdepth : h.height a < depth) : h.linearizeWithin depth a = some (h.linearize a) := by
  induction a using hh.induction generalizing depth with
  | _ a ih =>
    obtain ⟨depth, rfl⟩ : ∃ d, depth = d + 1 := ⟨depth - 1, by omega⟩
    cases hr : h.get? a with
    | none => simp [linearizeWithin, hr, linearize_unknown hr]
    | some r =>
      have hbelow {d : Nat} (hd : h.height a ≤ d) :
          h.linearizeWithin (d + 1) a = some (expand h.linearize a r) := by
        refine linearizeWithin_of_links hr fun b hb => ?_
        have hab : h.Edge a b := edge_iff.mpr ⟨r, hr, hb⟩
        exact ih b hab (Nat.lt_of_lt_of_le (hh.height_lt hab) hd)
      have hlist : h.linearize a = expand h.linearize a r := by
        rw [linearize, hbelow (height_le_size a), Option.getD_some]
      rw [hbelow (by omega), ← hlist]

/-- The list of a record by the lists of its superclass and its included modules. -/
theorem Stratified.linearize_of_get? (hh : h.Stratified) {id : ClassId} {r : Record τ}
    (hr : h.get? id = some r) : h.linearize id = expand h.linearize id r := by
  have hbound : h.height id < h.size + 1 + 1 := by
    have hle := h.height_le_size id
    omega
  have hlist : h.linearizeWithin (h.size + 1 + 1) id = some (expand h.linearize id r) := by
    refine linearizeWithin_of_links hr fun b hb => hh.linearizeWithin_eq ?_
    have hlt := hh.height_lt (edge_iff.mpr ⟨r, hr, hb⟩)
    omega
  rw [hh.linearizeWithin_eq hbound] at hlist
  exact Option.some.inj hlist

theorem mem_mixIn {inherited listed ancestors : List ClassId} {x : ClassId} :
    x ∈ mixIn inherited listed ancestors ↔ x ∈ listed ∨ x ∈ ancestors ∧ x ∉ inherited := by
  induction ancestors generalizing listed with
  | nil => simp [mixIn]
  | cons a as ih =>
    have hstep : mixIn inherited listed (a :: as) =
        mixIn inherited (if a ∈ listed ∨ a ∈ inherited then listed else listed ++ [a]) as := rfl
    rw [hstep, ih]
    split <;> grind

theorem mem_foldl_mixIn {inherited : List ClassId} {g : ClassId → List ClassId}
    {x : ClassId} (ms listed : List ClassId) :
    x ∈ ms.foldl (fun listed m => mixIn inherited listed (g m)) listed ↔
      x ∈ listed ∨ x ∉ inherited ∧ ∃ m ∈ ms, x ∈ g m := by
  induction ms generalizing listed with
  | nil => simp
  | cons m ms ih =>
    rw [List.foldl_cons, ih, mem_mixIn]
    simp only [List.mem_cons]
    grind

theorem mem_expand {g : ClassId → List ClassId} {id x : ClassId} {r : Record τ} :
    x ∈ expand g id r ↔ x = id ∨ ∃ b ∈ r.links, x ∈ g b := by
  simp only [expand, List.mem_append, mem_foldl_mixIn, List.mem_reverse, List.mem_singleton,
    Record.links]
  cases r.superclass with
  | none => simp
  | some parent =>
    simp only [Option.elim_some, Option.toList_some, List.mem_cons, List.not_mem_nil, or_false]
    grind

/-- The ancestors of a record are the records that can be reached from it. -/
theorem Stratified.mem_linearize_iff (hh : h.Stratified) {a x : ClassId} :
    x ∈ h.linearize a ↔ h.Knows a ∧ h.Reaches a x := by
  induction a using hh.induction with
  | _ a ih =>
    cases hr : h.get? a with
    | none => simp [linearize_unknown hr, get?_eq_none_iff.mp hr]
    | some r =>
      have hedge {b : ClassId} : h.Edge a b ↔ b ∈ r.links := by simp [edge_iff, hr]
      rw [hh.linearize_of_get? hr, mem_expand]
      constructor
      · rintro (rfl | ⟨b, hb, hx⟩)
        · exact ⟨.of_get? hr, .refl⟩
        · exact ⟨.of_get? hr, .head (hedge.mpr hb) ((ih b (hedge.mpr hb)).mp hx).2⟩
      · rintro ⟨-, hreach⟩
        rcases ReflTransGen.cases_head hreach with rfl | ⟨b, hab, hbx⟩
        · exact .inl rfl
        · exact .inr ⟨b, hedge.mp hab, (ih b hab).mpr ⟨hh.closed hab, hbx⟩⟩

theorem Stratified.self_mem_linearize (hh : h.Stratified) {a : ClassId} (ha : h.Knows a) :
    a ∈ h.linearize a :=
  hh.mem_linearize_iff.mpr ⟨ha, .refl⟩

theorem expand_congr {σ : Type} {g g' : ClassId → List ClassId} {id : ClassId} {r : Record τ}
    {r' : Record σ} (hsuper : r'.superclass = r.superclass) (hincludes : r'.includes = r.includes)
    (hg : ∀ b ∈ r.links, g' b = g b) : expand g' id r' = expand g id r := by
  have hinherited : r.superclass.elim [] g' = r.superclass.elim [] g := by
    cases hs : r.superclass with
    | none => rfl
    | some parent => exact hg parent (by simp [Record.links, hs])
  simp only [expand, hsuper, hincludes, hinherited]
  congr 1
  refine List.foldl_ext _ _ _ fun listed m hm => ?_
  rw [hg m (by simpa [Record.links] using Or.inr hm)]

/-- The superclass and the included modules of the record with a number. -/
def shape? (h : Hierarchy τ) (id : ClassId) : Option (Option ClassId × List ClassId) :=
  (h.get? id).map fun r => (r.superclass, r.includes)

theorem edge_congr {a b : ClassId} (hshape : h'.shape? a = h.shape? a) :
    h'.Edge a b ↔ h.Edge a b := by
  have hlinks (h : Hierarchy τ) : h.links a = (h.shape? a).elim [] fun s => s.1.toList ++ s.2 := by
    simp only [links, shape?]
    cases h.get? a <;> rfl
  simp only [Edge, hlinks, hshape]

/-- The ancestors of a record stay what they are if the graph above it does. -/
theorem Stratified.linearize_congr (hh : h.Stratified) (hh' : h'.Stratified)
    {P : ClassId → Prop} (hshape : ∀ a, P a → h'.shape? a = h.shape? a)
    (hclosed : ∀ a b, P a → h.Edge a b → P b) {a : ClassId} (ha : P a) :
    h'.linearize a = h.linearize a := by
  induction a using hh.induction with
  | _ a ih =>
    have hsame := hshape a ha
    cases hr : h.get? a with
    | none =>
      have hr' : h'.get? a = none := by simpa [shape?, hr] using hsame
      rw [linearize_unknown hr, linearize_unknown hr']
    | some r =>
      obtain ⟨r', hr', hsuper, hincludes⟩ : ∃ r', h'.get? a = some r' ∧
          r'.superclass = r.superclass ∧ r'.includes = r.includes := by
        simpa [shape?, hr] using hsame
      rw [hh.linearize_of_get? hr, hh'.linearize_of_get? hr']
      refine expand_congr hsuper hincludes fun b hb => ?_
      have hab : h.Edge a b := edge_iff.mpr ⟨r, hr, hb⟩
      exact ih b hab (hclosed a b ha hab)

end Hierarchy

end LateBinding
