import LateBinding.Lookup.Cache
import LateBinding.Proofs.Hierarchy.Stamps

namespace LateBinding

variable {τ : Type}

namespace LookupCache

/-- The hierarchy vouches for every walk that is kept. -/
def Sound (c : LookupCache τ) (h : Hierarchy τ) : Prop :=
  ∀ ⦃id name kept⦄, c.walks.get? (id, name) = some kept →
    h.Vouches id name kept.generation fun walk => walk = kept.walk

variable {c : LookupCache τ} {h h' : Hierarchy τ}

theorem sound_empty (h : Hierarchy τ) : (empty : LookupCache τ).Sound h := by
  intro id name kept hkept
  cases hkept

theorem sound_clear (c : LookupCache τ) (h : Hierarchy τ) : c.clear.Sound h := by
  intro id name kept hkept
  cases hkept

theorem Sound.of_evolves (hc : c.Sound h) (hev : h.Evolves h') : c.Sound h' :=
  fun _ _ _ hkept => (hc hkept).of_evolves hev

theorem Sound.get (hc : c.Sound h) (id : ClassId) (name : Symbol) (generation : Nat) :
    (c.get id name generation).2.Sound h := by
  intro id' name' kept hkept
  rw [walks_get] at hkept
  exact hc hkept

/-- What the cache answers is the walk of the moment. -/
theorem Sound.eq_of_get (hc : c.Sound h) {id : ClassId} {name : Symbol} {generation : Nat}
    {walk : Walk τ} (hg : h.stampOf? id = some generation)
    (hanswer : (c.get id name generation).1 = some walk) :
    walk = h.view id name ∧ (h.ancestors id).2 = h := by
  simp only [LookupCache.get] at hanswer
  split at hanswer
  · rename_i kept hkept
    split at hanswer
    · rename_i hgeneration
      obtain rfl := Option.some.inj hanswer
      have hnote := hc hkept
      rw [hgeneration] at hnote
      exact ⟨(hnote.holds hg).symm, hnote.ancestors_snd hg⟩
    · cases hanswer
  · cases hanswer

theorem Sound.insert (hc : c.Sound h) {id : ClassId} {name : Symbol} {generation : Nat}
    {walk : Walk τ} (hnote : h.Vouches id name generation fun found => found = walk) :
    (c.insert id name generation walk).Sound h := by
  have hput :
      LookupCache.Sound { c with walks := c.walks.insert (id, name) ⟨generation, walk⟩ } h := by
    intro id' name' kept hkept
    simp only [Table.get?_insert] at hkept
    split at hkept
    · rename_i hkey
      obtain ⟨rfl, rfl⟩ := Prod.mk.inj hkey
      obtain rfl := Option.some.inj hkept
      exact hnote
    · exact hc hkept
  rw [LookupCache.insert]
  split
  · split
    · exact hc
    · exact hput
  · exact hput

end LookupCache

namespace Hierarchy

variable {h : Hierarchy τ} {c : LookupCache τ}

/-- A walk through a sound cache comes to what the graph and the tables determine, and leaves the
ancestors of its first record remembered, as a walk without the cache does. -/
theorem Sound.walkCached_spec (hh : h.Sound) (hc : c.Sound h) (id : ClassId) (name : Symbol) :
    (h.walkCached c id name).1 = h.view id name ∧
      (h.walkCached c id name).2.2 = (h.ancestors id).2 ∧
        (h.walkCached c id name).2.1.Sound (h.ancestors id).2 := by
  rw [walkCached]
  split
  · rename_i hunknown
    rw [view_unknown hunknown, ancestors_unknown hunknown]
    exact ⟨rfl, rfl, hc⟩
  · rename_i r hr
    have hg : h.stampOf? id = some r.stamp := by rw [stampOf?, hr, Option.map_some]
    have hcounted := hc.get id name r.stamp
    split
    · rename_i walk c₁ hanswer
      obtain ⟨hwalk, hsame⟩ := hc.eq_of_get hg (by rw [hanswer])
      rw [hanswer] at hcounted
      refine ⟨hwalk, hsame.symm, ?_⟩
      rwa [hsame]
    · rename_i c₁ hanswer
      rw [hanswer] at hcounted
      have hev := hh.evolves_of_recalls (hh.recalls_ancestors id)
      rw [hh.walk_eq]
      exact ⟨rfl, rfl, (hcounted.of_evolves hev).insert (hh.vouches_of_walk hg rfl)⟩

end Hierarchy

/-- A hierarchy together with the cache that walks in it go through. -/
structure CachedHierarchy (τ : Type) where
  hierarchy : Hierarchy τ
  cache : LookupCache τ

/-- What can be done with a hierarchy and its cache. -/
inductive CacheMove (τ : Type) where
  | edit (e : Edit τ)
  | walk (id : ClassId) (name : Symbol)
  | clear

namespace CachedHierarchy

/-- The hierarchy without records, and a cache that keeps nothing. -/
def empty : CachedHierarchy τ := ⟨.empty, .empty⟩

/-- Carries out a move. -/
def move (s : CachedHierarchy τ) : CacheMove τ → CachedHierarchy τ
  | .edit e => { s with hierarchy := (e.apply s.hierarchy).2 }
  | .walk id name =>
    let (_, cache, hierarchy) := s.hierarchy.walkCached s.cache id name
    { hierarchy, cache }
  | .clear => { s with cache := s.cache.clear }

/-- Carries out moves one after the other. -/
def run (s : CachedHierarchy τ) (ms : List (CacheMove τ)) : CachedHierarchy τ := ms.foldl move s

/-- Along a list of moves, every record that is made has no superclass or one that exists. -/
def Admits (s : CachedHierarchy τ) : List (CacheMove τ) → Prop
  | [] => True
  | .edit e :: ms => e.NamesKnownSuperclass s.hierarchy ∧ (s.move (.edit e)).Admits ms
  | m :: ms => (s.move m).Admits ms

instance decidableAdmits (s : CachedHierarchy τ) :
    (ms : List (CacheMove τ)) → Decidable (s.Admits ms)
  | [] => inferInstanceAs (Decidable True)
  | .edit e :: ms =>
    have := decidableAdmits (s.move (.edit e)) ms
    inferInstanceAs (Decidable (_ ∧ _))
  | .walk id name :: ms => decidableAdmits (s.move (.walk id name)) ms
  | .clear :: ms => decidableAdmits (s.move .clear) ms

/-- The hierarchy is sound, and so is the cache in it. -/
structure Sound (s : CachedHierarchy τ) : Prop where
  hierarchy : s.hierarchy.Sound
  cache : s.cache.Sound s.hierarchy

variable {s : CachedHierarchy τ}

theorem sound_empty : (empty : CachedHierarchy τ).Sound :=
  ⟨Hierarchy.sound_empty, LookupCache.sound_empty _⟩

theorem Sound.edit (hs : s.Sound) {e : Edit τ} (he : e.NamesKnownSuperclass s.hierarchy) :
    (s.move (.edit e)).Sound := by
  have hev := hs.hierarchy.evolves_apply he
  exact ⟨hev.sound, hs.cache.of_evolves hev⟩

theorem Sound.walk (hs : s.Sound) (id : ClassId) (name : Symbol) :
    (s.move (.walk id name)).Sound := by
  obtain ⟨-, hhierarchy, hcache⟩ := hs.hierarchy.walkCached_spec hs.cache id name
  rw [← hhierarchy] at hcache
  refine ⟨?_, hcache⟩
  have hrec := hs.hierarchy.recalls_ancestors id
  simpa only [move, hhierarchy] using hrec.sound

theorem Sound.run (hs : s.Sound) {ms : List (CacheMove τ)} (hms : s.Admits ms) :
    (s.run ms).Sound := by
  induction ms generalizing s with
  | nil => exact hs
  | cons m ms ih =>
    cases m with
    | edit e =>
      obtain ⟨he, hrest⟩ := hms
      exact ih (hs.edit he) hrest
    | walk id name => exact ih (hs.walk id name) hms
    | clear => exact ih ⟨hs.hierarchy, LookupCache.sound_clear _ _⟩ hms

/-- Whatever was done before, a walk through the cache comes to what it comes to without the cache,
and so do look-ups in every mode and look-ups that ignore visibility. The hierarchy is left the same,
too. -/
theorem walkCached_eq_walk {ms : List (CacheMove τ)} (hms : (empty : CachedHierarchy τ).Admits ms)
    (id : ClassId) (name : Symbol) :
    let s : CachedHierarchy τ := empty.run ms
    let cached := s.hierarchy.walkCached s.cache id name
    let plain := s.hierarchy.walk id name
    cached.1 = plain.1 ∧ cached.2.2 = plain.2 ∧
      (∀ mode, cached.1.lookup mode = plain.1.lookup mode) ∧
        cached.1.lookupAny = plain.1.lookupAny := by
  intro s cached plain
  have hs : s.Sound := sound_empty.run hms
  obtain ⟨hwalk, hhierarchy, -⟩ := hs.hierarchy.walkCached_spec hs.cache id name
  have hplain : plain = (s.hierarchy.view id name, (s.hierarchy.ancestors id).2) :=
    hs.hierarchy.walk_eq id name
  have hsame : cached.1 = plain.1 := by rw [hwalk, hplain]
  refine ⟨hsame, ?_, fun mode => ?_, ?_⟩
  · rw [hhierarchy, hplain]
  · rw [hsame]
  · rw [hsame]

/-- A method that is defined after a walk was kept is found, though the old walk is still kept. -/
theorem walkCached_eq_walk_after_definition :
    let ms : List (CacheMove Unit) :=
      [.edit (.create "A" none {}), .edit (.create "B" (some ⟨0⟩) {}), .walk ⟨1⟩ ⟨"foo"⟩,
        .edit (.define ⟨0⟩ ⟨"foo"⟩ .pub () {})]
    let s : CachedHierarchy Unit := empty.run ms
    (s.hierarchy.walkCached s.cache ⟨1⟩ ⟨"foo"⟩).1 = (s.hierarchy.walk ⟨1⟩ ⟨"foo"⟩).1 := by
  intro ms s
  have hms : (empty : CachedHierarchy Unit).Admits ms := by decide +kernel
  exact (walkCached_eq_walk hms ⟨1⟩ ⟨"foo"⟩).1

end CachedHierarchy

end LateBinding
