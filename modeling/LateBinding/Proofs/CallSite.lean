import LateBinding.CallSite
import LateBinding.Proofs.Hierarchy.Stamps

namespace LateBinding

variable {τ : Type}

/-- What a look-up comes to, as a call site remembers it. -/
def Remembered.ofLookup : Lookup τ → Remembered τ
  | .found m => .method m
  | _ => .notFound

namespace CallSite

/-- The chain is within its limit, and the hierarchy vouches for its entries. -/
structure Sound (s : CallSite τ) (h : Hierarchy τ) : Prop where
  size_le : s.state.size ≤ s.limit
  entries : ∀ e ∈ s.state.entries,
    h.Vouches e.guard.cls e.guard.name e.generation
      fun walk => e.target = .ofLookup (walk.lookup s.mode)

variable {s : CallSite τ} {h h' : Hierarchy τ}

theorem sound_new (id : Nat) (mode : Mode) (limit : Nat) (h : Hierarchy τ) :
    (new id mode limit).Sound h where
  size_le := Nat.zero_le _
  entries e he := by cases he

theorem Sound.of_evolves (hs : s.Sound h) (hev : h.Evolves h') : s.Sound h' where
  size_le := hs.size_le
  entries e he := (hs.entries e he).of_evolves hev

/-- What the memory answers is what a look-up comes to at the moment, and the look-up would find its
ancestors remembered. -/
theorem Sound.eq_of_answerFor? (hs : s.Sound h) {g : Guard} {generation : Nat}
    {remembered : Remembered τ} (hg : h.stampOf? g.cls = some generation)
    (hanswer : s.answerFor? g generation = some remembered) :
    remembered = .ofLookup ((h.view g.cls g.name).lookup s.mode) ∧ (h.ancestors g.cls).2 = h := by
  obtain ⟨e, he, rfl⟩ := Option.map_eq_some_iff.mp hanswer
  obtain ⟨hfound, hfresh⟩ := Option.filter_eq_some_iff.mp he
  have hguard : e.guard = g := by simpa using List.find?_some hfound
  have hgeneration : e.generation = generation := by simpa [SiteEntry.isFresh] using hfresh
  have hnote := hs.entries e (List.mem_of_find?_eq_some hfound)
  rw [hguard, hgeneration] at hnote
  exact ⟨hnote.holds hg, hnote.ancestors_snd hg⟩

private theorem mem_entries_withEntry {state : SiteState τ} {entry e : SiteEntry τ} {limit : Nat}
    (he : e ∈ (state.withEntry entry limit).entries) : e ∈ state.entries ∨ e = entry := by
  simp only [SiteState.withEntry] at he
  split at he
  · cases he
  · split at he
    · exact .inl he
    · split at he
      · cases he
      · simpa using he

/-- An entry was in the chain before the installation, or it is the one that was installed. -/
theorem mem_entries_install {current : ClassId → Option Nat} {entry e : SiteEntry τ}
    (he : e ∈ (s.install current entry).2.state.entries) : e ∈ s.state.entries ∨ e = entry := by
  simp only [install] at he
  split at he
  · exact .inl he
  · split at he
    · exact .inl he
    · rcases mem_entries_withEntry he with hold | hnew
      · rw [SiteState.entries_retainFresh] at hold
        exact .inl (List.mem_of_mem_filter hold)
      · exact .inr hnew

/-- Installing an entry changes nothing of a site but its memory. In particular it moves no counter. -/
theorem exists_install_eq (s : CallSite τ) (current : ClassId → Option Nat) (entry : SiteEntry τ) :
    ∃ state isMegamorphic, (s.install current entry).2 = { s with state, isMegamorphic } := by
  simp only [install]
  split
  · exact ⟨_, _, rfl⟩
  · split <;> exact ⟨_, _, rfl⟩

/-- A new entry that is vouched for keeps a site sound. -/
theorem Sound.install (hs : s.Sound h) (current : ClassId → Option Nat) {entry : SiteEntry τ}
    (hentry : h.Vouches entry.guard.cls entry.guard.name entry.generation
      fun walk => entry.target = .ofLookup (walk.lookup s.mode)) :
    (s.install current entry).2.Sound h := by
  refine ⟨?_, fun e he => ?_⟩
  · have hretained : (s.state.retainFresh current).size ≤ s.limit := by
      have hfilter := List.length_filter_le (fun e => (current e.guard.cls).any e.isFresh)
        s.state.entries
      have hsize := hs.size_le
      simp only [SiteState.size, SiteState.entries_retainFresh] at hsize ⊢
      omega
    simp only [CallSite.install]
    split
    · exact hs.size_le
    · split
      · exact hs.size_le
      · exact SiteState.size_withEntry_le hretained
  · have hmode : (s.install current entry).2.mode = s.mode := by
      obtain ⟨_, _, heq⟩ := s.exists_install_eq current entry
      rw [heq]
    rw [hmode]
    rcases mem_entries_install he with hold | rfl
    · exact hs.entries e hold
    · exact hentry

end CallSite

end LateBinding
