import LateBinding.Proofs.Hierarchy.Edits

namespace LateBinding

variable {τ : Type}

namespace Hierarchy

variable {h h' : Hierarchy τ} {id : ClassId} {name : Symbol} {g : Nat} {P : Walk τ → Prop}

theorem Evolves.ancestors_eq (hev : h.Evolves h') (hh : h.Sound) (hg : h.stampOf? id = some g)
    (hg' : h'.stampOf? id = some g) : (h'.ancestors id).1 = (h.ancestors id).1 := by
  rw [hev.sound.ancestors_fst, hh.ancestors_fst, (hev.same hg hg').linearize_eq]

theorem Evolves.walk_eq (hev : h.Evolves h') (hh : h.Sound) (hg : h.stampOf? id = some g)
    (hg' : h'.stampOf? id = some g) (name : Symbol) :
    (h'.walk id name).1 = (h.walk id name).1 := by
  simp only [hev.sound.walk_eq, hh.walk_eq, (hev.same hg hg').view_eq]

/-- A stamp is a sound version number, whatever is asked of a hierarchy between two moments of a
run. Refused requests are requests like any other here. -/
theorem run_eq_of_stamp_eq {es fs : List (Edit τ)}
    (hrun : (empty : Hierarchy τ).Admits (es ++ fs))
    (hg : (empty.run es : Hierarchy τ).stampOf? id = some g)
    (hg' : (empty.run (es ++ fs) : Hierarchy τ).stampOf? id = some g) :
    ((empty.run (es ++ fs) : Hierarchy τ).ancestors id).1 = ((empty.run es).ancestors id).1 ∧
      ∀ name, ((empty.run (es ++ fs) : Hierarchy τ).walk id name).1 =
        ((empty.run es).walk id name).1 := by
  obtain ⟨hes, hfs⟩ := admits_append.mp hrun
  have hsound := sound_run hes
  have hev := hsound.evolves_run hfs
  rw [← run_append] at hev
  exact ⟨hev.ancestors_eq hsound hg hg', hev.walk_eq hsound hg hg'⟩

/-- A method of an unrelated class, and a request that is refused, leave the stamp of a class and
what is found from it alone. -/
theorem walk_eq_beside_unrelated_class :
    let es : List (Edit Unit) :=
      [.create "A" none {}, .create "B" (some ⟨0⟩) {}, .create "C" none {},
        .define ⟨0⟩ ⟨"foo"⟩ .pub () {}]
    let fs : List (Edit Unit) :=
      [.define ⟨2⟩ ⟨"foo"⟩ .priv () {}, .setSuperclass ⟨0⟩ ⟨1⟩, .remove ⟨1⟩ ⟨"foo"⟩]
    ((empty.run (es ++ fs)).walk ⟨1⟩ ⟨"foo"⟩).1 = ((empty.run es).walk ⟨1⟩ ⟨"foo"⟩).1 := by
  intro es fs
  have hrun : (empty : Hierarchy Unit).Admits (es ++ fs) := by decide +kernel
  have hg : (empty.run es).stampOf? ⟨1⟩ = some 2 := by decide +kernel
  have hg' : (empty.run (es ++ fs)).stampOf? ⟨1⟩ = some 2 := by decide +kernel
  exact (run_eq_of_stamp_eq hrun hg hg').2 ⟨"foo"⟩

/-- What was found out about a walk when its first record had a stamp holds while the record still
has it, and then the record also still remembers its ancestors. The stamp is not ahead of that of
the record, so it cannot come back once it is gone. -/
structure Vouches (h : Hierarchy τ) (id : ClassId) (name : Symbol) (g : Nat)
    (P : Walk τ → Prop) : Prop where
  stamped : ∃ current, h.stampOf? id = some current ∧ g ≤ current
  recalled : h.stampOf? id = some g → ∃ list, h.recalled? id = some list
  holds : h.stampOf? id = some g → P (h.view id name)

theorem Vouches.of_evolves (hev : h.Evolves h') (hnote : h.Vouches id name g P) :
    h'.Vouches id name g P := by
  obtain ⟨current, hcurrent, hle⟩ := hnote.stamped
  obtain ⟨current', hcurrent'⟩ := stampOf?_of_knows (hev.knows (knows_of_stampOf? hcurrent))
  have hmono := hev.stamp_le hcurrent hcurrent'
  have hback (hg' : h'.stampOf? id = some g) : h.stampOf? id = some g := by
    rw [hg', Option.some.injEq] at hcurrent'
    have hsame : current = g := by omega
    rw [hcurrent, hsame]
  refine ⟨⟨current', hcurrent', hle.trans hmono⟩, fun hg' => ?_, fun hg' => ?_⟩
  · obtain ⟨list, hlist⟩ := hnote.recalled (hback hg')
    exact ⟨list, (hev.same (hback hg') hg').kept hlist⟩
  · rw [(hev.same (hback hg') hg').view_eq]
    exact hnote.holds (hback hg')

/-- A walk that was just made vouches for what it came to. -/
theorem Sound.vouches_of_walk (hh : h.Sound) (hg : h.stampOf? id = some g)
    (hP : P (h.view id name)) : (h.ancestors id).2.Vouches id name g P := by
  have hev := hh.evolves_of_recalls (hh.recalls_ancestors id)
  have hg' : (h.ancestors id).2.stampOf? id = some g := by
    rw [stampOf?_of_forget_eq (hh.recalls_ancestors id).forget_eq, hg]
  refine ⟨⟨g, hg', Nat.le_refl _⟩, fun _ => ?_, fun _ => ?_⟩
  · exact ⟨_, hh.recalled?_ancestors (knows_of_stampOf? hg)⟩
  · rwa [(hev.same hg hg').view_eq]

/-- Asking for remembered ancestors changes nothing. -/
theorem Vouches.ancestors_snd (hnote : h.Vouches id name g P) (hg : h.stampOf? id = some g) :
    (h.ancestors id).2 = h := by
  obtain ⟨list, hlist⟩ := hnote.recalled hg
  rw [ancestors_of_recalled hlist]

end Hierarchy

end LateBinding
