import Mathlib.Data.List.Nodup
import ThreeAddress.Proofs.Acceptance
import ThreeAddress.Proofs.Checking

/-!
# Numbering and linear use of temporaries

The triads of a statement are numbered by their places, every operation keeps its result under its
own number, and each of these results is used once, later on. The triads of an expression use all
their temporaries but the one that stands for its value: together with that one, the uses are a
rearrangement of the numbers of the operations. The check of a listing follows from these facts.
-/
namespace ThreeAddress
open Statement
open scoped List

/-- The temporaries that triads refer to, one for each operand that refers to one. -/
def references (triads : List Triad) : List Nat :=
  triads.flatMap fun t => t.operands.filterMap Operand.referenced?

@[simp] theorem references_append (xs ys : List Triad) :
    references (xs ++ ys) = references xs ++ references ys := List.flatMap_append

theorem references_singleton (t : Triad) :
    references [t] = t.left.referenced?.toList ++ t.right.referenced?.toList := by
  simp only [references, Triad.operands, List.flatMap_cons, List.flatMap_nil, List.append_nil]
  cases hl : t.left.referenced? <;> cases hr : t.right.referenced? <;> simp [hl, hr]

namespace Expr

/-- Operations are numbered in the order of their triads. -/
theorem map_number_triads (e : Expr) (n : Nat) :
    (e.triads n).map Triad.number = List.range' (n + 1) e.operations := by
  induction e generalizing n with
  | term t => rfl
  | negation e ih => exact ih n
  | operation op left right ihl ihr =>
    rw [triads, List.map_append, List.map_append, ihl, ihr, operations, List.range'_1_concat,
      Nat.add_right_comm n left.operations 1, List.range'_append_1]
    simp only [triadOf, List.map_cons, List.map_nil]
    congr 2
    omega

theorem operation_of_mem_triads {e : Expr} {n : Nat} {t : Triad} (h : t ∈ e.triads n) :
    t.operator.isBinary ∧ t.result? = some t.number := by
  induction e generalizing n with
  | term => cases h
  | negation e ih => exact ih h
  | operation op left right ihl ihr =>
    rw [triads, List.mem_append, List.mem_append, List.mem_singleton] at h
    rcases h with (h | h) | rfl
    · exact ihl h
    · exact ihr h
    · exact ⟨op.isBinary_operator, rfl⟩

/-- An operation refers to operations before it. -/
theorem referenced?_of_mem_triads {e : Expr} {n k : Nat} {t : Triad} {o : Operand}
    (h : t ∈ e.triads n) (ho : o ∈ t.operands) (hk : o.referenced? = some k) :
    n < k ∧ k < t.number := by
  induction e generalizing n with
  | term => cases h
  | negation e ih => exact ih h
  | operation op left right ihl ihr =>
    rw [triads, List.mem_append, List.mem_append, List.mem_singleton] at h
    rcases h with (h | h) | rfl
    · exact ihl h
    · have := ihr h
      omega
    · simp only [Triad.operands, List.mem_cons, List.not_mem_nil, or_false] at ho
      rcases ho with rfl | rfl
      · have := referenced?_operand hk
        simp only [triadOf] at *
        omega
      · have := referenced?_operand hk
        simp only [triadOf] at *
        omega

/-- Each operation is referred to once, by another one or by the operand of the expression. -/
theorem references_triads_perm (e : Expr) (n : Nat) :
    references (e.triads n) ++ (e.operand n).referenced?.toList ~
      List.range' (n + 1) e.operations := by
  induction e generalizing n with
  | term t => cases t <;> exact .refl _
  | negation e ih => exact ih n
  | operation op left right ihl ihr =>
    have hnumbers : List.range' (n + 1) left.operations ++
        List.range' (n + left.operations + 1) right.operations =
        List.range' (n + 1) (left.operations + right.operations) := by
      rw [Nat.add_right_comm n left.operations 1, List.range'_append_1]
    have hnumber : n + left.operations + right.operations + 1 =
        n + 1 + (left.operations + right.operations) := by omega
    rw [triads, references_append, references_append, references_singleton, operations,
      List.range'_1_concat, ← hnumbers, operand, Operand.referenced?, Option.toList_some, hnumber]
    refine .append_right _ ?_
    -- Each reference in the new triad goes to the uses of the operand that it stands for.
    calc references (left.triads n) ++ references (right.triads (n + left.operations)) ++
          ((left.operand n).referenced?.toList ++
            (right.operand (n + left.operations)).referenced?.toList)
        ~ (references (left.triads n) ++ (left.operand n).referenced?.toList) ++
          (references (right.triads (n + left.operations)) ++
            (right.operand (n + left.operations)).referenced?.toList) := by
          rw [List.append_assoc, List.append_assoc]
          exact .append_left _ (List.perm_append_comm_assoc ..)
      _ ~ List.range' (n + 1) left.operations ++
          List.range' (n + left.operations + 1) right.operations :=
        (ihl n).append (ihr (n + left.operations))

end Expr

namespace Assignment

theorem map_number_triads (a : Assignment) :
    a.triads.map Triad.number = List.range' 1 (a.value.operations + 1) := by
  rw [triads, List.map_append, Expr.map_number_triads, List.range'_1_concat, Nat.zero_add,
    Nat.add_comm 1]
  rfl

theorem referenced?_left_closing (a : Assignment) : a.closing.left.referenced? = none := by
  unfold closing
  cases a.target <;> rfl

theorem references_triads_perm (a : Assignment) :
    references a.triads ~ List.range' 1 a.value.operations := by
  have hvalue := a.value.references_triads_perm 0
  rw [Nat.zero_add] at hvalue
  rw [triads, references_append, references_singleton, referenced?_left_closing]
  exact hvalue

end Assignment

/-! ## Listings -/

theorem Triad.operand_mem_operands (t : Triad) (side : Side) : t.operand side ∈ t.operands := by
  cases side <;> simp [operand, operands]

theorem Triad.mem_filterMap_operands {t : Triad} {k : Nat} :
    k ∈ t.operands.filterMap Operand.referenced? ↔
      ∃ side, (t.operand side).referenced? = some k := by
  simp only [operands, List.mem_filterMap, List.mem_cons, List.not_mem_nil, or_false]
  constructor
  · rintro ⟨o, rfl | rfl, h⟩
    · exact ⟨.left, h⟩
    · exact ⟨.right, h⟩
  · rintro ⟨side, h⟩
    cases side with
    | left => exact ⟨t.left, .inl rfl, h⟩
    | right => exact ⟨t.right, .inr rfl, h⟩

namespace Listing

/-- Numbers follow places, and every temporary is used once and later than it is kept. -/
structure LinearUse (l : Listing) : Prop where
  number : ∀ i : Fin l.triads.size, (l.triadAt i).number = i + 1
  /-- Every triad but the last is a binary operation and keeps its result under its number. -/
  operation : ∀ i : Fin l.triads.size, i + 1 < l.triads.size →
    (l.triadAt i).operator.isBinary ∧ (l.triadAt i).result? = some (l.triadAt i).number
  closing : ∃ last, l.last? = some last ∧ last.operator = .assign ∧ last.result? = none
  /-- A temporary used in a triad, also under changes of sign, is kept by an earlier one. -/
  earlier : ∀ (i : Fin l.triads.size) (side : Side) (k : Nat),
    ((l.triadAt i).operand side).referenced? = some k → 1 ≤ k ∧ k < (l.triadAt i).number
  /-- Every temporary is used in one operand of the whole listing. -/
  once : ∀ k, 1 ≤ k → k < l.triads.size → ∃! slot : Fin l.triads.size × Side,
    ((l.triadAt slot.1).operand slot.2).referenced? = some k

variable {l : Listing}

namespace LinearUse

/-- A temporary that is used is kept by the triad with its number. -/
theorem resolved (h : l.LinearUse) : l.Resolved := by
  intro i side k hk
  obtain ⟨hpos, hlt⟩ := h.earlier i side k (Operand.refers_iff.mp hk)
  rw [h.number i] at hlt
  let j : Fin l.triads.size := ⟨k - 1, by omega⟩
  have hresult := (h.operation j (by dsimp only [j]; omega)).2
  have hnumber : (l.triadAt j).number = k := by
    rw [h.number j]
    dsimp only [j]
    omega
  exact ⟨j, hnumber ▸ hresult⟩

/-- A listing with linear use is well formed. -/
theorem check_eq_ok (h : l.LinearUse) : l.check = .ok () := by
  obtain ⟨last, hlast, hassign, hresult⟩ := h.closing
  refine check_eq_ok_iff_passes.mpr ⟨⟨last, hlast, hassign, hresult, ?_⟩, ?_, h.resolved⟩
  · intro i hnone
    by_cases hi : i + 1 < l.triads.size
    · rw [(h.operation i hi).2] at hnone
      cases hnone
    · rw [triadAt_eq_of_last? hlast i hi]
  · intro i k hk
    by_cases hi : i + 1 < l.triads.size
    · rw [(h.operation i hi).2] at hk
      exact (Option.some.inj hk).symm
    · rw [triadAt_eq_of_last? hlast i hi, hresult] at hk
      cases hk

end LinearUse
end Listing

theorem Triad.side_unique {t : Triad} {k : Nat}
    (h : (t.operands.filterMap Operand.referenced?).Nodup) {side other : Side}
    (hs : (t.operand side).referenced? = some k) (ho : (t.operand other).referenced? = some k) :
    side = other := by
  cases side <;> cases other
  · rfl
  · exact absurd h (by simp_all [operands, operand])
  · exact absurd h (by simp_all [operands, operand])
  · rfl

/-- When no temporary is used twice, a use stands in one place. -/
theorem existsUnique_slot {l : Listing} {k : Nat} (hnodup : (references l.triads.toList).Nodup)
    (hmem : k ∈ references l.triads.toList) : ∃! slot : Fin l.triads.size × Side,
      ((l.triadAt slot.1).operand slot.2).referenced? = some k := by
  obtain ⟨hone, hpair⟩ := List.nodup_flatMap.mp hnodup
  obtain ⟨t, ht, hk⟩ := List.mem_flatMap.mp hmem
  obtain ⟨i, hi, rfl⟩ := List.getElem_of_mem ht
  obtain ⟨side, hside⟩ := Triad.mem_filterMap_operands.mp hk
  refine ⟨(⟨i, by simpa using hi⟩, side), hside, ?_⟩
  rintro ⟨⟨j, hj⟩, other⟩ hother
  have hj' : j < l.triads.toList.length := by simpa using hj
  have hk' : k ∈ l.triads.toList[j].operands.filterMap Operand.referenced? :=
    Triad.mem_filterMap_operands.mpr ⟨other, hother⟩
  -- Different triads share no reference, and neither do the two operands of one.
  have hdisjoint := List.pairwise_iff_getElem.mp hpair
  obtain hlt | rfl | hlt := Nat.lt_trichotomy i j
  · exact (hdisjoint i j hi hj' hlt hk hk').elim
  · obtain rfl := Triad.side_unique (hone _ ht) hside hother
    rfl
  · exact (hdisjoint j i hj' hi hlt hk' hk).elim

namespace Assignment

theorem mem_triads (a : Assignment) (i : Fin a.listing.triads.size) :
    a.listing.triadAt i ∈ a.triads :=
  List.mem_of_getElem? (a.getElem?_triads i)

/-- A triad before the last belongs to the value. -/
theorem mem_triads_value (a : Assignment) {i : Fin a.listing.triads.size}
    (hi : i + 1 < a.listing.triads.size) : a.listing.triadAt i ∈ a.value.triads 0 := by
  have hget := a.getElem?_triads i
  have hsize := a.size_triads_listing
  rw [triads, List.getElem?_append_left (by rw [Expr.length_triads]; omega)] at hget
  exact List.mem_of_getElem? hget

theorem number_triads_listing (a : Assignment) (i : Fin a.listing.triads.size) :
    (a.listing.triadAt i).number = i + 1 := by
  have hnumber : (a.triads.map Triad.number)[i.val]? = some (a.listing.triadAt i).number := by
    rw [List.getElem?_map, a.getElem?_triads]
    rfl
  have hi : i.val < a.value.operations + 1 := a.size_triads_listing ▸ i.isLt
  rw [map_number_triads, List.getElem?_range' hi] at hnumber
  have := Option.some.inj hnumber
  omega

theorem referenced?_triads_listing (a : Assignment) {i : Fin a.listing.triads.size} {side : Side}
    {k : Nat} (hk : ((a.listing.triadAt i).operand side).referenced? = some k) :
    1 ≤ k ∧ k < (a.listing.triadAt i).number := by
  have hmem := a.mem_triads i
  rw [triads, List.mem_append, List.mem_singleton] at hmem
  rcases hmem with hmem | hmem
  · exact Expr.referenced?_of_mem_triads hmem (Triad.operand_mem_operands _ side) hk
  · rw [hmem] at hk ⊢
    cases side with
    | left => cases a.referenced?_left_closing.symm.trans hk
    | right =>
      have := Expr.referenced?_operand hk
      simp only [closing]
      omega

theorem linearUse_listing (a : Assignment) : a.listing.LinearUse where
  number := a.number_triads_listing
  operation i hi := Expr.operation_of_mem_triads (a.mem_triads_value hi)
  closing := ⟨a.closing, by simp [Listing.last?, listing, triads], rfl, rfl⟩
  earlier i side k hk := a.referenced?_triads_listing hk
  once k hk hsize := by
    have hperm := a.references_triads_perm
    apply existsUnique_slot
    · exact hperm.symm.nodup List.nodup_range'
    · rw [toList_triads_listing, hperm.mem_iff, List.mem_range'_1]
      rw [size_triads_listing] at hsize
      omega

end Assignment

/-- A statement that is read has a listing whose numbers follow its places and whose temporaries
are each used once, after they are kept; so the listing is well formed. -/
theorem parse_numbers_and_uses_once {source : String} {l : Listing} (h : parse source = .ok l) :
    l.LinearUse ∧ l.check = .ok () := by
  obtain ⟨a, -, -, rfl⟩ := exists_assignment_of_parse h
  exact ⟨a.linearUse_listing, a.linearUse_listing.check_eq_ok⟩

/-- A product of a sum and of a change of sign over another. -/
theorem parse_numbers_and_uses_once_product :
    ∃ l, parse "p:=(a+b)*-(c-d);" = .ok l ∧ l.triads.size = 4 ∧ l.LinearUse ∧
      l.check = .ok () := by
  let l : Listing := ⟨#[
    ⟨1, .add, .identifier "a", .identifier "b", some 1⟩,
    ⟨2, .subtract, .identifier "c", .identifier "d", some 2⟩,
    ⟨3, .multiply, .temporary 1, .negated (.temporary 2), some 3⟩,
    ⟨4, .assign, .identifier "p", .temporary 3, none⟩]⟩
  have h : parse "p:=(a+b)*-(c-d);" = .ok l := by decide +kernel
  exact ⟨l, h, rfl, parse_numbers_and_uses_once h⟩

end ThreeAddress
