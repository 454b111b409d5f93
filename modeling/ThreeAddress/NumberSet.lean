import Std.Data.TreeSet

/-!
# Sets of numbers

Numbers of triads and temporaries are collected in ordered sets. Membership in such a set is said
here with equality of numbers in place of comparison.
-/
namespace ThreeAddress

/-- A set of numbers, listed in ascending order. -/
abbrev NumberSet := Std.TreeSet Nat

namespace NumberSet

theorem mem_insert_iff {s : NumberSet} {a k : Nat} : a ∈ s.insert k ↔ a = k ∨ a ∈ s := by
  rw [Std.TreeSet.mem_insert, Std.LawfulEqCmp.compare_eq_iff_eq, eq_comm]

theorem mem_erase_iff {s : NumberSet} {a k : Nat} : a ∈ s.erase k ↔ a ≠ k ∧ a ∈ s := by
  rw [Std.TreeSet.mem_erase, ne_eq, Std.LawfulEqCmp.compare_eq_iff_eq, eq_comm]

theorem mem_ofList_iff {xs : List Nat} {a : Nat} :
    a ∈ (Std.TreeSet.ofList xs : NumberSet) ↔ a ∈ xs := by
  simp [Std.TreeSet.mem_ofList]

theorem contains_iff_mem {s : NumberSet} {a : Nat} : s.contains a = true ↔ a ∈ s :=
  Std.TreeSet.mem_iff_contains.symm

end NumberSet
end ThreeAddress
