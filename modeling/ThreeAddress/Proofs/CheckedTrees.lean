import ThreeAddress.Proofs.Checking
import ThreeAddress.Proofs.Defects

/-!
# Trees of checked listings

The check looks temporaries up among the results that are kept, building a tree looks them up among
the numbers of the triads. A checked listing keeps results under numbers, so a temporary that passes
the first look-up passes the second one, whatever order the numbers come in and however often one
occurs. Hence no tree of checked listings is stopped by a temporary that names no triad. `Misses` is
what such a defect stands for in the listing that has it.
-/
namespace ThreeAddress

open Expansion

namespace Listing

variable {l : Listing}

/-- Some operand is to be expanded into the triad numbered `k`, and there is none. -/
def Misses (l : Listing) (k : Nat) : Prop :=
  (∃ i side, ((l.triadAt i).operand side).target? = some k) ∧ l.indexOf? k = none

theorem misses_of_outline {k : Nat} (h : l.outline = .error (.dangling k)) : l.Misses k := by
  rcases stops_or_missed_of_outline h with ⟨root, -, hstops⟩ | ⟨ts, t, -, -, hother⟩
  · cases hstops with
    | dangling below target none => exact ⟨⟨_, _, target⟩, none⟩
  · cases hother

/-- A temporary without a triad stops the tree of listings only where some listing misses it. -/
theorem exists_misses_of_ofListings {listings : List Listing} {k : Nat}
    (h : Tree.ofListings listings = .error (.dangling k)) : ∃ l ∈ listings, l.Misses k := by
  obtain ⟨l, hl, houtline⟩ := exists_outline_of_ofListings h
  exact ⟨l, hl, misses_of_outline houtline⟩

/-- A temporary that is kept under the number of its triad is not missed. -/
theorem Passes.not_misses (h : l.Passes) (k : Nat) : ¬l.Misses k := by
  rintro ⟨⟨i, side, htarget⟩, hnone⟩
  obtain ⟨m, rfl⟩ := Operand.exists_of_target? htarget
  have hrefers : ((l.triadAt i).operand side).Refers (m + 1) := by
    rw [Operand.target?_eq_some_iff.mp htarget]
    exact .temporary
  obtain ⟨j, hj⟩ := h.resolved i side _ hrefers
  exact indexOf?_eq_none_iff.mp hnone j (h.kept j _ hj).symm

end Listing

/-- No tree of checked listings is stopped by a temporary that names no triad, neither that of one
of them alone nor that of all together. -/
theorem checked_never_dangles {listings : List Listing} (h : ∀ l ∈ listings, l.check = .ok ())
    (k : Nat) : Tree.ofListings listings ≠ .error (.dangling k) ∧
      ∀ l ∈ listings, Tree.ofListings [l] ≠ .error (.dangling k) := by
  have hmisses : ∀ l ∈ listings, ¬l.Misses k := fun l hl =>
    (Listing.check_eq_ok_iff_passes.mp (h l hl)).not_misses k
  constructor
  · intro htree
    obtain ⟨l, hl, hmiss⟩ := Listing.exists_misses_of_ofListings htree
    exact hmisses l hl hmiss
  · intro l hl htree
    obtain ⟨m, hm, hmiss⟩ := Listing.exists_misses_of_ofListings htree
    rw [List.mem_singleton.mp hm] at hmiss
    exact hmisses l hl hmiss

/-- A checked listing with numbers out of order, one of them zero and one twice. Its second triad is
reached from nowhere, so it has no tree, but for another reason. -/
theorem checked_never_dangles_unordered :
    let unordered : Listing := ⟨#[
      ⟨3, .add, .identifier "b", .identifier "c", some 3⟩,
      ⟨0, .multiply, .temporary 3, .negated (.temporary 0), some 0⟩,
      ⟨3, .subtract, .temporary 0, .identifier "d", some 3⟩,
      ⟨1, .assign, .identifier "a", .temporary 3, none⟩]⟩
    unordered.check = .ok () ∧ Tree.ofListings [unordered] = .error (.unreachable 0) ∧
      ∀ k, Tree.ofListings [unordered, unordered] ≠ .error (.dangling k) ∧
        ∀ l ∈ [unordered, unordered], Tree.ofListings [l] ≠ .error (.dangling k) := by
  intro unordered
  have hcheck : unordered.check = .ok () := by decide +kernel
  refine ⟨hcheck, by decide +kernel, fun k => checked_never_dangles ?_ k⟩
  simpa using hcheck

end ThreeAddress
