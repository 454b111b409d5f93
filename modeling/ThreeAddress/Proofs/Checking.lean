import Mathlib.Logic.Basic
import Mathlib.Tactic.ByContra
import ThreeAddress.Listing.WellFormed

/-!
# What the check of a listing accepts

A listing is well formed when its last triad, an assignment, is the only one without a result, every
other triad keeps its result under its own number, and every temporary that is referred to is kept
by some triad. The check goes through the triads twice, results first, and stops at the first fault.
It tells the closing triad from others by its number, not by its place. So a listing passes also if
further triads without a result have the number of the last one, and it is well formed exactly when
it passes and there are none of these.
-/
namespace ThreeAddress

/-- The temporary `k` is the operand itself, or stands in it under changes of sign. -/
inductive Operand.Refers (k : Nat) : Operand → Prop where
  | temporary : Refers k (.temporary k)
  | negated {operand : Operand} (inner : Refers k operand) : Refers k (.negated operand)

theorem Operand.refers_iff {o : Operand} {k : Nat} : o.Refers k ↔ o.referenced? = some k := by
  induction o with
  | temporary id =>
    constructor
    · intro h
      cases h
      rfl
    · intro h
      obtain rfl : id = k := Option.some.inj h
      exact .temporary
  | negated o ih =>
    rw [referenced?, ← ih]
    constructor
    · intro h
      cases h with
      | negated inner => exact inner
    · exact .negated
  | identifier | number | character =>
    constructor
    all_goals
      intro h
      cases h

/-! ## Faults of one triad -/

namespace Triad

variable {t : Triad}

theorem resultFault?_eq_none_iff {closing : Nat} : t.resultFault? closing = none ↔
    (∀ k, t.result? = some k → k = t.number) ∧ (t.result? = none → t.number = closing) := by
  unfold resultFault?
  cases t.result? with
  | none => simp
  | some k => simp

/-- The fault of one operand of a triad with a number. -/
def strayFault? (produced : NumberSet) (number : Nat) (operand : Operand) : Option Malformation :=
  match operand.referenced? with
  | some temporary =>
      if produced.contains temporary then none else some (.unknownTemporary number temporary)
  | none => none

theorem operandFault?_eq_or (t : Triad) (produced : NumberSet) : t.operandFault? produced =
    (strayFault? produced t.number t.left).or (strayFault? produced t.number t.right) := by
  have hfindSome : t.operandFault? produced =
      [t.left, t.right].findSome? (strayFault? produced t.number) := rfl
  rw [hfindSome, List.findSome?_cons, List.findSome?_singleton]
  cases strayFault? produced t.number t.left <;> rfl

theorem strayFault?_eq_some_iff {produced : NumberSet} {number : Nat} {operand : Operand}
    {fault : Malformation} : strayFault? produced number operand = some fault ↔
      ∃ k, operand.Refers k ∧ k ∉ produced ∧ fault = .unknownTemporary number k := by
  unfold strayFault?
  simp only [Operand.refers_iff]
  cases operand.referenced? with
  | none => simp
  | some k =>
    by_cases hk : k ∈ produced
    · simp [NumberSet.contains_iff_mem.mpr hk, hk]
    · simp [mt NumberSet.contains_iff_mem.mp hk, hk, eq_comm]

theorem strayFault?_eq_none_iff {produced : NumberSet} {number : Nat} {operand : Operand} :
    strayFault? produced number operand = none ↔ ∀ k, operand.Refers k → k ∈ produced := by
  simp only [Option.eq_none_iff_forall_ne_some, ne_eq, strayFault?_eq_some_iff]
  constructor
  · intro h k hk
    by_contra hstray
    exact h _ ⟨k, hk, hstray, rfl⟩
  · rintro h fault ⟨k, hk, hstray, -⟩
    exact hstray (h k hk)

/-- A triad is at fault for an operand that refers to a temporary that is not kept, for the right
one only if the left one is without fault. -/
theorem operandFault?_eq_some_iff {produced : NumberSet} {fault : Malformation} :
    t.operandFault? produced = some fault ↔ ∃ side k, (t.operand side).Refers k ∧ k ∉ produced ∧
      (side = .right → ∀ m, t.left.Refers m → m ∈ produced) ∧
      fault = .unknownTemporary t.number k := by
  rw [operandFault?_eq_or, Option.or_eq_some_iff, strayFault?_eq_some_iff, strayFault?_eq_none_iff,
    strayFault?_eq_some_iff]
  constructor
  · rintro (⟨k, hk, hstray, hfault⟩ | ⟨hleft, k, hk, hstray, hfault⟩)
    · refine ⟨.left, k, hk, hstray, ?_, hfault⟩
      intro hright
      cases hright
    · exact ⟨.right, k, hk, hstray, fun _ => hleft, hfault⟩
  · rintro ⟨side, k, hk, hstray, hleft, hfault⟩
    cases side with
    | left => exact .inl ⟨k, hk, hstray, hfault⟩
    | right => exact .inr ⟨hleft rfl, k, hk, hstray, hfault⟩

theorem operandFault?_eq_none_iff {produced : NumberSet} :
    t.operandFault? produced = none ↔ ∀ side k, (t.operand side).Refers k → k ∈ produced := by
  rw [operandFault?_eq_or, Option.or_eq_none_iff, strayFault?_eq_none_iff, strayFault?_eq_none_iff]
  constructor
  · rintro ⟨hleft, hright⟩ side
    cases side with
    | left => exact hleft
    | right => exact hright
  · intro h
    exact ⟨h .left, h .right⟩

end Triad

/-! ## Faults of a listing -/

namespace Listing

variable {l : Listing}

theorem mem_produced_iff {k : Nat} : k ∈ l.produced ↔ ∃ i, (l.triadAt i).result? = some k := by
  rw [produced, NumberSet.mem_ofList_iff, List.mem_filterMap]
  constructor
  · rintro ⟨t, ht, hk⟩
    obtain ⟨i, rfl⟩ := mem_toList_triads.mp ht
    exact ⟨i, hk⟩
  · rintro ⟨i, hk⟩
    exact ⟨_, mem_toList_triads.mpr ⟨i, rfl⟩, hk⟩

theorem findSome?_triads_eq_none_iff {f : Triad → Option Malformation} :
    l.triads.toList.findSome? f = none ↔ ∀ i, f (l.triadAt i) = none := by
  rw [List.findSome?_eq_none_iff]
  constructor
  · intro h i
    exact h _ (mem_toList_triads.mpr ⟨i, rfl⟩)
  · intro h t ht
    obtain ⟨i, rfl⟩ := mem_toList_triads.mp ht
    exact h i

/-- Every temporary that an operand refers to keeps the result of some triad. -/
def Resolved (l : Listing) : Prop :=
  ∀ (i : Fin l.triads.size) (side : Side) (k : Nat), ((l.triadAt i).operand side).Refers k →
    ∃ j, (l.triadAt j).result? = some k

/-- The last triad is an assignment and the only one without a result, the others keep their
results under their numbers, and every temporary referred to is kept. -/
structure WellFormed (l : Listing) : Prop where
  closing : ∃ i : Fin l.triads.size, (∀ j, (l.triadAt j).result? = none ↔ j = i) ∧
    i.val + 1 = l.triads.size ∧ (l.triadAt i).operator = .assign
  kept : ∀ i k, (l.triadAt i).result? = some k → k = (l.triadAt i).number
  resolved : l.Resolved

/-- The same with the closing triad known by its number: every triad without a result has the
number of the last one, which is an assignment without a result. -/
structure Passes (l : Listing) : Prop where
  closing : ∃ last, l.last? = some last ∧ last.operator = .assign ∧ last.result? = none ∧
    ∀ i, (l.triadAt i).result? = none → (l.triadAt i).number = last.number
  kept : ∀ i k, (l.triadAt i).result? = some k → k = (l.triadAt i).number
  resolved : l.Resolved

/-- No triad before the last one has its number and no result. -/
def ClosedOnce (l : Listing) : Prop :=
  ∀ (i : Fin l.triads.size) (last : Triad), i.val + 1 < l.triads.size → l.last? = some last →
    (l.triadAt i).number = last.number → (l.triadAt i).result? ≠ none

theorem check_eq_ok_iff : l.check = .ok () ↔ l.fault? = none := by
  unfold check
  cases l.fault? <;> simp

theorem check_eq_error_iff {fault : Malformation} :
    l.check = .error fault ↔ l.fault? = some fault := by
  unfold check
  cases l.fault? <;> simp

/-- The faults of a listing that closes as it should are those of its triads, results first. -/
theorem fault?_of_last? {last : Triad} (hlast : l.last? = some last)
    (hassign : last.operator = .assign) (hresult : last.result? = none) :
    l.fault? = (l.triads.toList.findSome? (Triad.resultFault? last.number)).or
      (l.triads.toList.findSome? (Triad.operandFault? l.produced)) := by
  simp [fault?, hlast, hassign, hresult]

theorem findSome?_operandFault?_eq_none_iff :
    l.triads.toList.findSome? (Triad.operandFault? l.produced) = none ↔ l.Resolved := by
  simp only [findSome?_triads_eq_none_iff, Triad.operandFault?_eq_none_iff, mem_produced_iff,
    Resolved]

theorem exists_last?_of_fault?_eq_none (h : l.fault? = none) :
    ∃ last, l.last? = some last ∧ last.operator = .assign ∧ last.result? = none := by
  unfold fault? at h
  cases hlast : l.last? with
  | none => simp [hlast] at h
  | some last =>
    by_cases hclosing : last.operator ≠ .assign ∨ last.result?.isSome
    · simp [hlast, hclosing] at h
    · simpa using hclosing

/-- The check accepts a listing whose closing triad is known by its number. -/
theorem check_eq_ok_iff_passes : l.check = .ok () ↔ l.Passes := by
  have hfault : ∀ last, l.last? = some last → last.operator = .assign → last.result? = none →
      (l.fault? = none ↔ (∀ i k, (l.triadAt i).result? = some k → k = (l.triadAt i).number) ∧
        (∀ i, (l.triadAt i).result? = none → (l.triadAt i).number = last.number) ∧
        l.Resolved) := by
    intro last hlast hassign hresult
    rw [fault?_of_last? hlast hassign hresult, Option.or_eq_none_iff, findSome?_triads_eq_none_iff,
      findSome?_operandFault?_eq_none_iff]
    simp only [Triad.resultFault?_eq_none_iff, forall_and, and_assoc]
  rw [check_eq_ok_iff]
  constructor
  · intro h
    obtain ⟨last, hlast, hassign, hresult⟩ := exists_last?_of_fault?_eq_none h
    obtain ⟨hkept, hnumber, hresolved⟩ := (hfault last hlast hassign hresult).mp h
    exact ⟨⟨last, hlast, hassign, hresult, hnumber⟩, hkept, hresolved⟩
  · rintro ⟨⟨last, hlast, hassign, hresult, hnumber⟩, hkept, hresolved⟩
    exact (hfault last hlast hassign hresult).mpr ⟨hkept, hnumber, hresolved⟩

theorem triadAt_eq_of_last? {last : Triad} (hlast : l.last? = some last)
    (i : Fin l.triads.size) (hi : ¬i + 1 < l.triads.size) : l.triadAt i = last := by
  have hplace : i.val = l.triads.size - 1 := by omega
  rw [last?, Array.back?_eq_getElem?, ← hplace, Array.getElem?_eq_getElem i.isLt] at hlast
  exact Option.some.inj hlast

theorem last?_eq_some_iff {last : Triad} : l.last? = some last ↔
    ∃ i : Fin l.triads.size, i.val + 1 = l.triads.size ∧ l.triadAt i = last := by
  constructor
  · intro hlast
    have hsize : 0 < l.triads.size := by
      by_contra hempty
      rw [last?, Array.back?_eq_getElem?, Array.getElem?_eq_none (by omega)] at hlast
      cases hlast
    refine ⟨⟨l.triads.size - 1, by omega⟩, by simp only; omega, ?_⟩
    exact triadAt_eq_of_last? hlast _ (by simp only; omega)
  · rintro ⟨i, hi, rfl⟩
    have hplace : l.triads.size - 1 = i.val := by omega
    rw [last?, Array.back?_eq_getElem?, hplace, Array.getElem?_eq_getElem i.isLt]
    rfl

theorem WellFormed.passes (h : l.WellFormed) : l.Passes := by
  obtain ⟨i, hsole, hi, hassign⟩ := h.closing
  refine ⟨⟨l.triadAt i, last?_eq_some_iff.mpr ⟨i, hi, rfl⟩, hassign, (hsole i).mpr rfl, ?_⟩,
    h.kept, h.resolved⟩
  intro j hj
  rw [(hsole j).mp hj]

theorem WellFormed.closedOnce (h : l.WellFormed) : l.ClosedOnce := by
  obtain ⟨i, hsole, hi, -⟩ := h.closing
  intro j last hj _ _ hnone
  have hplace : j = i := (hsole j).mp hnone
  omega

theorem Passes.wellFormed (h : l.Passes) (honce : l.ClosedOnce) : l.WellFormed := by
  obtain ⟨last, hlast, hassign, hresult, hnumber⟩ := h.closing
  obtain ⟨i, hi, rfl⟩ := last?_eq_some_iff.mp hlast
  refine ⟨⟨i, fun j => ⟨fun hj => ?_, ?_⟩, hi, hassign⟩, h.kept, h.resolved⟩
  · -- A triad without a result has the number of the last one, so it is not before it.
    by_contra hother
    have hbefore : j.val + 1 < l.triads.size := by omega
    exact honce j _ hbefore hlast (hnumber j hj) hj
  · rintro rfl
    exact hresult

end Listing

/-- A listing is well formed exactly when the check accepts it and no triad before the last one has
its number and no result. What the check accepts is a listing whose triads without a result all have
the number of the last one. -/
theorem wellFormed_iff_check_and_closedOnce (l : Listing) :
    (l.WellFormed ↔ l.check = .ok () ∧ l.ClosedOnce) ∧ (l.check = .ok () ↔ l.Passes) := by
  refine ⟨?_, Listing.check_eq_ok_iff_passes⟩
  rw [Listing.check_eq_ok_iff_passes]
  constructor
  · intro h
    exact ⟨h.passes, h.closedOnce⟩
  · rintro ⟨h, honce⟩
    exact h.wellFormed honce

/-- Two assignments that share a number. -/
def assignedTwice : Listing := ⟨#[
  ⟨1, .assign, .identifier "a", .identifier "b", none⟩,
  ⟨1, .assign, .identifier "c", .identifier "d", none⟩]⟩

/-- The check accepts two triads without a result, so a listing that is not well formed. -/
theorem not_check_assignedTwice_iff_wellFormed :
    ¬(assignedTwice.check = .ok () ↔ assignedTwice.WellFormed) := by
  have hcheck : assignedTwice.check = .ok () := Listing.check_eq_ok_iff.mpr (by decide +kernel)
  rw [iff_true_left hcheck]
  intro h
  obtain ⟨i, hsole, -⟩ := h.closing
  have hfirst : (0 : Fin 2) = i := (hsole (0 : Fin 2)).mp rfl
  have hsecond : (1 : Fin 2) = i := (hsole (1 : Fin 2)).mp rfl
  exact absurd (hfirst.trans hsecond.symm) (by decide)

end ThreeAddress
