import LateBinding.Lookup
import LateBinding.Proofs.Hierarchy.Publish

namespace LateBinding

namespace Hierarchy

variable {τ : Type} {h h' : Hierarchy τ}

/-- The entry for a name in the own table of the record with a number. -/
def own? (h : Hierarchy τ) (id : ClassId) (name : Symbol) : Option (Method τ) :=
  (h.get? id).bind fun r => r.own? name

/-- The first own entry for a name among the ancestors that the graph determines. -/
def first? (h : Hierarchy τ) (id : ClassId) (name : Symbol) : Option (Method τ) :=
  h.firstOwn? name (h.linearize id)

/-- What a walk from a record comes to by the graph and the tables. -/
def view (h : Hierarchy τ) (id : ClassId) (name : Symbol) : Walk τ := .ofFirst (h.first? id name)

theorem own?_of_map_eq {id : ClassId} (name : Symbol)
    (hmethods : (h'.get? id).map Record.methods = (h.get? id).map Record.methods) :
    h'.own? id name = h.own? id name := by
  have hown (h : Hierarchy τ) :
      h.own? id name = ((h.get? id).map Record.methods).bind fun t => t.get? name := by
    simp only [own?]
    cases h.get? id <;> rfl
  rw [hown, hmethods, ← hown]

theorem own?_of_forget_eq (hforget : h'.forget = h.forget) (id : ClassId) (name : Symbol) :
    h'.own? id name = h.own? id name :=
  own?_of_map_eq name (map_get?_of_forget_eq (fun _ => rfl) hforget id)

theorem firstOwn?_congr {name : Symbol} {list : List ClassId}
    (hown : ∀ x ∈ list, h'.own? x name = h.own? x name) :
    h'.firstOwn? name list = h.firstOwn? name list := by
  induction list with
  | nil => rfl
  | cons x list ih =>
    have hx : ((h'.get? x).bind fun r => r.own? name) = (h.get? x).bind fun r => r.own? name :=
      hown x (by simp)
    have hrest := ih fun y hy => hown y (by simp [hy])
    simp only [firstOwn?, List.findSome?_cons] at hrest ⊢
    rw [hx, hrest]

theorem firstOwn?_eq_none_iff {name : Symbol} {list : List ClassId} :
    h.firstOwn? name list = none ↔ ∀ x ∈ list, h.own? x name = none :=
  List.findSome?_eq_none_iff

theorem firstOwn?_append (h : Hierarchy τ) (name : Symbol) (list list' : List ClassId) :
    h.firstOwn? name (list ++ list') = (h.firstOwn? name list).or (h.firstOwn? name list') :=
  List.findSome?_append

theorem firstOwn?_cons (h : Hierarchy τ) (name : Symbol) (x : ClassId) (list : List ClassId) :
    h.firstOwn? name (x :: list) = (h.own? x name).or (h.firstOwn? name list) := by
  rw [firstOwn?, List.findSome?_cons, ← own?]
  cases h.own? x name <;> rfl

theorem first?_unknown {id : ClassId} (hid : h.get? id = none) (name : Symbol) :
    h.first? id name = none := by
  simp [first?, linearize_unknown hid, firstOwn?]

theorem view_unknown {id : ClassId} (hid : h.get? id = none) (name : Symbol) :
    h.view id name = .absent := by
  rw [view, first?_unknown hid]
  rfl

theorem Recalls.first?_eq (hrec : h.Recalls h') (hh : h.Stratified) (id : ClassId)
    (name : Symbol) : h'.first? id name = h.first? id name := by
  rw [first?, first?, hrec.linearize_eq hh]
  exact firstOwn?_congr fun x _ => own?_of_forget_eq hrec.forget_eq x name

theorem Recalls.view_eq (hrec : h.Recalls h') (hh : h.Stratified) (id : ClassId) (name : Symbol) :
    h'.view id name = h.view id name := by
  rw [view, hrec.first?_eq hh, ← view]

theorem Sound.resolve?_eq (hh : h.Sound) (id : ClassId) (name : Symbol) :
    h.resolve? id name = (h.first? id name, (h.ancestors id).2) := by
  have hrec := hh.recalls_ancestors id
  have hfirst : (h.ancestors id).2.firstOwn? name (h.linearize id) = h.first? id name :=
    firstOwn?_congr fun x _ => own?_of_forget_eq hrec.forget_eq x name
  simp only [resolve?, hh.ancestors_fst id, hfirst]

/-- A walk comes to what the graph and the tables determine, and changes only what is remembered. -/
theorem Sound.walk_eq (hh : h.Sound) (id : ClassId) (name : Symbol) :
    h.walk id name = (h.view id name, (h.ancestors id).2) := by
  simp only [walk, hh.resolve?_eq, view]

/-- A walk passes by the ancestors without an own entry for the name, and goes on behind one that has
none. -/
theorem Sound.walk_eq_of_ancestors (hh : h.Sound) {id a : ClassId} {before behind : List ClassId}
    {name : Symbol} (hlist : (h.ancestors id).1 = before ++ a :: behind)
    (hfree : ∀ x ∈ before, h.own? x name = none) :
    (h.walk id name).1 = .ofFirst ((h.own? a name).or (h.firstOwn? name behind)) := by
  rw [hh.ancestors_fst] at hlist
  rw [hh.walk_eq, view, first?, hlist, firstOwn?_append, firstOwn?_eq_none_iff.mpr hfree,
    Option.none_or, firstOwn?_cons]

theorem Sound.resolveDefined?_eq (hh : h.Sound) (id : ClassId) (name : Symbol) :
    h.resolveDefined? id name =
      ((h.first? id name).filter fun m => !m.isUndefined, (h.ancestors id).2) := by
  simp only [resolveDefined?, hh.resolve?_eq]

end Hierarchy

end LateBinding
