import LateBinding.Proofs.CoreClasses
import LateBinding.Script

namespace LateBinding

namespace CoreClasses

/-- The requests that make the core classes in an empty hierarchy. -/
def requests : List (Edit Target) :=
  [.create "BasicObject" none {}, .create "Object" (some ⟨0⟩) {},
    .create "Kernel" none { isModule := true }, .addInclude ⟨1⟩ ⟨2⟩,
    .create "Module" (some ⟨1⟩) {}, .create "Class" (some ⟨3⟩) {}] ++
  (["NilClass", "TrueClass", "FalseClass", "Integer", "Float", "Symbol", "String"].map fun name =>
    .create name (some ⟨1⟩) { isImmediate := true }) ++
  [.create "ForeignObject" (some ⟨1⟩) { isForeign := true }]

theorem bootstrap_eq_run :
    (bootstrap (.empty : Hierarchy Target)).2 = Hierarchy.empty.run requests := by
  with_unfolding_all rfl

theorem admits_requests : (Hierarchy.empty : Hierarchy Target).Admits requests := by
  decide +kernel

theorem sound_bootstrap : (bootstrap (.empty : Hierarchy Target)).2.Sound := by
  rw [bootstrap_eq_run]
  exact Hierarchy.sound_run admits_requests

theorem knownIn_bootstrap : (bootstrap (.empty : Hierarchy Target)).1.KnownIn
    (bootstrap (.empty : Hierarchy Target)).2 := by
  decide +kernel

/-- No class has a method before the kernel methods are defined. -/
theorem own?_bootstrap (id : ClassId) (name : Symbol) :
    (bootstrap (.empty : Hierarchy Target)).2.own? id name = none := by
  have hempty : ∀ id ∈ (bootstrap (.empty : Hierarchy Target)).2.ids,
      ∀ r ∈ (bootstrap (.empty : Hierarchy Target)).2.get? id, r.methods.keys = [] := by
    decide +kernel
  cases hr : (bootstrap (.empty : Hierarchy Target)).2.get? id with
  | none => rw [Hierarchy.own?, hr, Option.bind_none]
  | some r =>
    have hkeys := hempty id (Hierarchy.mem_ids.mpr (.of_get? hr)) r hr
    rw [Hierarchy.own?, hr, Option.bind_some, Record.own?, Table.get?_eq_none_iff, hkeys]
    exact List.not_mem_nil

end CoreClasses

end LateBinding
