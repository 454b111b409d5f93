import ThreeAddress.Proofs.Checking
import ThreeAddress.Proofs.Editing

/-!
# Checking listings that were edited

Edits change operands only. So a listing that was read and edited still closes with its assignment
and keeps its results under the numbers of their triads, and the check can find fault with nothing
but a temporary that an operand refers to. The temporaries kept are those from one up to the number
of the triad before the last. The fault that is reported is the first one outside this range, in the
order of the triads and from left to right.
-/
namespace ThreeAddress
open Statement

namespace Listing

variable {l : Listing}

/-- What a search through the triads finds comes from the first of them that has something. -/
theorem exists_first_of_findSome?_triads {f : Triad → Option Malformation} {fault : Malformation}
    (h : l.triads.toList.findSome? f = some fault) :
    ∃ i, f (l.triadAt i) = some fault ∧ ∀ j < i, f (l.triadAt j) = none := by
  obtain ⟨before, t, after, hsplit, ht, hbefore⟩ := List.findSome?_eq_some_iff.mp h
  have hget : ∀ i : Fin l.triads.size, (before ++ t :: after)[i.val]? = some (l.triadAt i) := by
    intro i
    rw [← hsplit, Array.getElem?_toList, Array.getElem?_eq_getElem i.isLt]
    rfl
  have hsize : before.length < l.triads.size := by
    rw [← Array.length_toList, hsplit, List.length_append, List.length_cons]
    omega
  refine ⟨⟨before.length, hsize⟩, ?_, fun j hj => ?_⟩
  · have hplace := hget ⟨before.length, hsize⟩
    rw [List.getElem?_append_right le_rfl, Nat.sub_self, List.getElem?_cons_zero] at hplace
    rw [← Option.some.inj hplace, ht]
  · have hplace := hget j
    rw [List.getElem?_append_left hj] at hplace
    exact hbefore _ (List.mem_of_getElem? hplace)

theorem findSome?_triads_eq_some_iff {f : Triad → Option Malformation} {fault : Malformation} :
    l.triads.toList.findSome? f = some fault ↔
      ∃ i, f (l.triadAt i) = some fault ∧ ∀ j < i, f (l.triadAt j) = none := by
  refine ⟨exists_first_of_findSome?_triads, ?_⟩
  rintro ⟨i, hi, hbefore⟩
  cases hfound : l.triads.toList.findSome? f with
  | none =>
    have hnone := findSome?_triads_eq_none_iff.mp hfound i
    rw [hi] at hnone
    cases hnone
  | some other =>
    -- The first triad that has something is the same one, since neither is before the other.
    obtain ⟨j, hj, hbefore'⟩ := exists_first_of_findSome?_triads hfound
    obtain hlt | hsame | hlt := Nat.lt_trichotomy i.val j.val
    · rw [hbefore' i hlt] at hi
      cases hi
    · rw [← hi, ← hj, Fin.ext hsame]
    · rw [hbefore j hlt] at hj
      cases hj

/-- The identifiers of the temporaries that a listing numbered by places keeps: from one up to the
number before the last. -/
def Keeps (l : Listing) (k : Nat) : Prop := 1 ≤ k ∧ k < l.triads.size

/-- The first operand, by triads and from left to right, that refers to a temporary out of range. -/
structure FirstStray (l : Listing) (i : Fin l.triads.size) (side : Side) (k : Nat) : Prop where
  refers : ((l.triadAt i).operand side).Refers k
  stray : ¬l.Keeps k
  /-- The triads before it have no such operand. -/
  before : ∀ j < i, ∀ other m, ((l.triadAt j).operand other).Refers m → l.Keeps m
  /-- If it is a right operand, the left one beside it is none. -/
  beside : side = .right → ∀ m, (l.triadAt i).left.Refers m → l.Keeps m

theorem Framed.mem_produced_iff_keeps (h : l.Framed) {k : Nat} : k ∈ l.produced ↔ l.Keeps k := by
  obtain ⟨last, hlast, -, hresult⟩ := h.closing
  rw [mem_produced_iff]
  constructor
  · rintro ⟨i, hi⟩
    by_cases hbefore : i.val + 1 < l.triads.size
    · rw [h.kept i hbefore] at hi
      obtain rfl : i.val + 1 = k := Option.some.inj hi
      exact ⟨by omega, hbefore⟩
    · rw [triadAt_eq_of_last? hlast i hbefore, hresult] at hi
      cases hi
  · rintro ⟨hpos, hlt⟩
    refine ⟨⟨k - 1, by omega⟩, ?_⟩
    rw [h.kept _ (by simp only; omega)]
    simp only [Option.some.injEq]
    omega

theorem Framed.resultFault?_eq_none (h : l.Framed) {last : Triad} (hlast : l.last? = some last)
    (hresult : last.result? = none) :
    l.triads.toList.findSome? (Triad.resultFault? last.number) = none := by
  rw [findSome?_triads_eq_none_iff]
  intro i
  rw [Triad.resultFault?_eq_none_iff]
  by_cases hbefore : i.val + 1 < l.triads.size
  · simp [h.kept i hbefore, h.number i]
  · simp [triadAt_eq_of_last? hlast i hbefore, hresult]

/-- The faults of a framed listing are those of its operands. -/
theorem Framed.fault?_eq (h : l.Framed) :
    l.fault? = l.triads.toList.findSome? (Triad.operandFault? l.produced) := by
  obtain ⟨last, hlast, hassign, hresult⟩ := h.closing
  rw [fault?_of_last? hlast hassign hresult, h.resultFault?_eq_none hlast hresult, Option.none_or]

theorem Framed.check_eq_ok_iff_keeps (h : l.Framed) : l.check = .ok () ↔
    ∀ i side k, ((l.triadAt i).operand side).Refers k → l.Keeps k := by
  rw [check_eq_ok_iff, h.fault?_eq, findSome?_triads_eq_none_iff]
  simp only [Triad.operandFault?_eq_none_iff, h.mem_produced_iff_keeps]

theorem Framed.check_eq_error_iff_firstStray (h : l.Framed) {fault : Malformation} :
    l.check = .error fault ↔
      ∃ i side k, l.FirstStray i side k ∧ fault = .unknownTemporary (l.triadAt i).number k := by
  rw [check_eq_error_iff, h.fault?_eq, findSome?_triads_eq_some_iff]
  simp only [Triad.operandFault?_eq_some_iff, Triad.operandFault?_eq_none_iff,
    h.mem_produced_iff_keeps]
  constructor
  · rintro ⟨i, ⟨side, k, hrefers, hstray, hbeside, hfault⟩, hbefore⟩
    exact ⟨i, side, k, ⟨hrefers, hstray, hbefore, hbeside⟩, hfault⟩
  · rintro ⟨i, side, k, hfirst, hfault⟩
    exact ⟨i, ⟨side, k, hfirst.refers, hfirst.stray, hfirst.beside, hfault⟩, hfirst.before⟩

end Listing

/-- After reading and any run of edits, the check accepts a listing exactly when every temporary
that an operand refers to, under any changes of sign, is one that is kept. Otherwise it reports the
first one that is not, with the triad that refers to it, and it reports nothing else. -/
theorem edited_check_names_first_stray {source : String} {l : Listing} (h : parse source = .ok l)
    (edits : List Edit) :
    ((l.afterEdits edits).check = .ok () ↔ ∀ i side k,
      (((l.afterEdits edits).triadAt i).operand side).Refers k → (l.afterEdits edits).Keeps k) ∧
    ∀ fault, (l.afterEdits edits).check = .error fault ↔
      ∃ i side k, (l.afterEdits edits).FirstStray i side k ∧
        fault = .unknownTemporary ((l.afterEdits edits).triadAt i).number k := by
  have hframed := framed_of_parse h edits
  exact ⟨hframed.check_eq_ok_iff_keeps, fun _ => hframed.check_eq_error_iff_firstStray⟩

/-- Of three strays, one under two changes of sign in the left operand of the product is the first.
One edit names no triad. -/
theorem edited_check_names_first_stray_signed :
    ∃ l, parse "a:=b+c*d;" = .ok l ∧
      let edited := l.afterEdits [⟨3, .right, .temporary 3⟩, ⟨1, .right, .temporary 0⟩,
        ⟨9, .left, .temporary 1⟩, ⟨1, .left, .negated (.negated (.temporary 7))⟩]
      edited.check = .error (.unknownTemporary 1 7) ∧
        ((edited.check = .ok () ↔
          ∀ i side k, ((edited.triadAt i).operand side).Refers k → edited.Keeps k) ∧
        ∀ fault, edited.check = .error fault ↔
          ∃ i side k, edited.FirstStray i side k ∧
            fault = .unknownTemporary (edited.triadAt i).number k) := by
  let l : Listing := ⟨#[
    ⟨1, .multiply, .identifier "c", .identifier "d", some 1⟩,
    ⟨2, .add, .identifier "b", .temporary 1, some 2⟩,
    ⟨3, .assign, .identifier "a", .temporary 2, none⟩]⟩
  have h : parse "a:=b+c*d;" = .ok l := by decide +kernel
  exact ⟨l, h, by decide +kernel, edited_check_names_first_stray h _⟩

end ThreeAddress
