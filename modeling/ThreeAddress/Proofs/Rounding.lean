import Mathlib.Algebra.Order.Field.Basic
import Mathlib.Algebra.Order.Field.Rat
import Mathlib.Algebra.Order.Ring.Abs
import Mathlib.Data.Nat.Cast.Order.Field
import Mathlib.Data.Nat.Digits.Defs
import Mathlib.Order.Interval.Set.Defs
import Mathlib.Tactic.Linarith
import Mathlib.Tactic.Positivity
import ThreeAddress.Proofs.Words

/-!
# Rounding to the nearest number

A numeral denotes a fraction and stands for the number nearest to it. Of two equally near ones it
stands for the one with an even significand, and this determines the number.

Magnitudes in their order are numbers in their order, and from one to the next the number grows by
the spacing there. So rounding is taken in three steps: to a multiple of the spacing, to a magnitude
of any size, and to a magnitude up to that of infinity, which counts as the power of two after the
largest number.
-/
namespace ThreeAddress.Binary64
open Grammar

/-! ## The nearest natural number -/

/-- Within a half of the fraction, and even where it is a half away. -/
structure RoundsTo (v : ℚ) (r : ℕ) : Prop where
  within : |(r : ℚ) - v| ≤ 1 / 2
  even : |(r : ℚ) - v| = 1 / 2 → r % 2 = 0

section
variable (n : ℕ) {d : ℕ} (hd : 0 < d)
include hd

/-- A fraction is a natural number and a part of one. -/
lemma div_eq_quotient_add : (n / d : ℚ) = (n / d : ℕ) + (n % d : ℕ) / d := by
  have hd' : (d : ℚ) ≠ 0 := Nat.cast_ne_zero.mpr hd.ne'
  have hdivmod : (d * (n / d : ℕ) + (n % d : ℕ) : ℚ) = n := by
    exact_mod_cast Nat.div_add_mod n d
  rw [div_eq_iff hd', add_mul, div_mul_cancel₀ _ hd', mul_comm, hdivmod]

lemma abs_quotient_sub : |((n / d : ℕ) : ℚ) - n / d| = (n % d : ℕ) / d := by
  have hpart : (0 : ℚ) ≤ (n % d : ℕ) / d := div_nonneg (Nat.cast_nonneg _) (Nat.cast_nonneg _)
  rw [div_eq_quotient_add n hd, abs_sub_comm, add_sub_cancel_left, abs_of_nonneg hpart]

lemma abs_quotient_succ_sub : |((n / d + 1 : ℕ) : ℚ) - n / d| = 1 - (n % d : ℕ) / d := by
  have hpart : ((n % d : ℕ) / d : ℚ) ≤ 1 :=
    div_le_one_of_le₀ (Nat.cast_le.mpr (Nat.mod_lt n hd).le) (Nat.cast_nonneg d)
  rw [div_eq_quotient_add n hd, Nat.cast_add, Nat.cast_one, add_sub_add_left_eq_sub,
    abs_of_nonneg (sub_nonneg.mpr hpart)]

lemma twice_mod_lt_iff : 2 * (n % d) < d ↔ ((n % d : ℕ) / d : ℚ) < 1 / 2 := by
  rw [div_lt_div_iff₀ (Nat.cast_pos.mpr hd) two_pos, one_mul, mul_comm 2]
  exact_mod_cast Iff.rfl

lemma twice_mod_eq_iff : 2 * (n % d) = d ↔ ((n % d : ℕ) / d : ℚ) = 1 / 2 := by
  rw [div_eq_div_iff (Nat.cast_ne_zero.mpr hd.ne') two_ne_zero, one_mul, mul_comm 2]
  exact_mod_cast Iff.rfl

lemma roundsTo_roundHalfEven : RoundsTo (n / d) (roundHalfEven n d) := by
  unfold roundHalfEven
  dsimp only
  simp only [Bool.or_eq_true, decide_eq_true_eq, Bool.and_eq_true, beq_iff_eq,
    twice_mod_lt_iff n hd, twice_mod_eq_iff n hd]
  split
  case isTrue h =>
    constructor
    · rw [abs_quotient_sub n hd]
      rcases h with hless | ⟨hhalf, -⟩
      · exact hless.le
      · exact hhalf.le
    · rw [abs_quotient_sub n hd]
      intro hhalf
      rcases h with hless | ⟨-, heven⟩
      · exact absurd hhalf hless.ne
      · exact heven
  case isFalse h =>
    rw [not_or] at h
    constructor
    · rw [abs_quotient_succ_sub n hd]
      linarith [not_lt.mp h.1]
    · rw [abs_quotient_succ_sub n hd]
      intro hhalf
      have hodd : ¬n / d % 2 = 0 := fun heven => h.2 ⟨by linarith, heven⟩
      omega

end

/-- Any other natural number is at least a half away. -/
lemma RoundsTo.half_le {v : ℚ} {r j : ℕ} (h : RoundsTo v r) (hne : j ≠ r) :
    1 / 2 ≤ |(j : ℚ) - v| := by
  have hapart : (1 : ℚ) ≤ |(j : ℚ) - r| := by
    have : (1 : ℤ) ≤ |(j : ℤ) - r| := Int.one_le_abs (by omega)
    exact_mod_cast this
  have htriangle := abs_sub_le (j : ℚ) v r
  rw [abs_sub_comm v] at htriangle
  linarith [h.within]

lemma RoundsTo.closest {v : ℚ} {r : ℕ} (h : RoundsTo v r) (j : ℕ) :
    |(r : ℚ) - v| ≤ |(j : ℚ) - v| := by
  by_cases hne : j = r
  · rw [hne]
  · exact h.within.trans (h.half_le hne)

lemma RoundsTo.even_of_tie {v : ℚ} {r j : ℕ} (h : RoundsTo v r) (hne : j ≠ r)
    (htie : |(r : ℚ) - v| = |(j : ℚ) - v|) : r % 2 = 0 :=
  h.even (le_antisymm h.within (htie ▸ h.half_le hne))

/-- Rounding does not pass a natural number. -/
lemma RoundsTo.le_of_lt {v : ℚ} {r k : ℕ} (h : RoundsTo v r) (hv : v < k) : r ≤ k := by
  have hbelow : (r : ℚ) < (k + 1 : ℕ) := by
    push_cast
    linarith [(abs_le.mp h.within).2]
  exact Nat.lt_succ_iff.mp (Nat.cast_lt.mp hbelow)

lemma RoundsTo.le_of_le {v : ℚ} {r k : ℕ} (h : RoundsTo v r) (hv : k ≤ v) : k ≤ r := by
  have habove : (k : ℚ) < (r + 1 : ℕ) := by
    push_cast
    linarith [(abs_le.mp h.within).1]
  exact Nat.lt_succ_iff.mp (Nat.cast_lt.mp habove)

/-! ## Magnitudes of any size -/

/-- What a magnitude stands for, in units of the least positive number. -/
def unitsAt (m : ℕ) : ℕ :=
  (if m < 2 ^ 52 then m else 2 ^ 52 + m % 2 ^ 52) * 2 ^ (m / 2 ^ 52 - 1)

/-- The significand added to the exponent field: it may be one too large for its spacing, since the
next power of two is the first number of the next spacing. -/
lemma unitsAt_add {s r : ℕ} (hr : r ≤ 2 ^ 53) (hs : s = 0 ∨ 2 ^ 52 ≤ r) :
    unitsAt (s * 2 ^ 52 + r) = r * 2 ^ s := by
  unfold unitsAt
  rcases Nat.lt_or_ge r (2 ^ 52) with hsmall | hlarge
  · obtain rfl : s = 0 := by omega
    rw [if_pos (by omega), show (0 * 2 ^ 52 + r) / 2 ^ 52 - 1 = 0 by omega]
    omega
  · rcases Nat.lt_or_ge r (2 ^ 53) with hbelow | habove
    · rw [if_neg (by omega), show (s * 2 ^ 52 + r) / 2 ^ 52 - 1 = s by omega,
        show 2 ^ 52 + (s * 2 ^ 52 + r) % 2 ^ 52 = r by omega]
    · obtain rfl : r = 2 ^ 53 := by omega
      rw [if_neg (by omega), show (s * 2 ^ 52 + 2 ^ 53) / 2 ^ 52 - 1 = s + 1 by omega,
        show 2 ^ 52 + (s * 2 ^ 52 + 2 ^ 53) % 2 ^ 52 = 2 ^ 52 by omega]
      ring

/-- Every magnitude is a significand at its spacing. -/
lemma exists_spacing (m : ℕ) :
    ∃ s r, m = s * 2 ^ 52 + r ∧ r < 2 ^ 53 ∧ (s = 0 ∨ 2 ^ 52 ≤ r) :=
  ⟨m / 2 ^ 52 - 1, m - (m / 2 ^ 52 - 1) * 2 ^ 52, by omega, by omega, by omega⟩

lemma unitsAt_strictMono : StrictMono unitsAt := by
  refine strictMono_nat_of_lt_succ fun m => ?_
  obtain ⟨s, r, rfl, hr, hs⟩ := exists_spacing m
  rw [unitsAt_add hr.le hs, Nat.add_assoc, unitsAt_add hr (by omega)]
  exact Nat.mul_lt_mul_of_pos_right (Nat.lt_succ_self r) (Nat.two_pow_pos s)

/-- A number is a multiple of a given spacing, or it is below those that have that spacing. -/
lemma unitsAt_multiple_or_lt (s k : ℕ) :
    (∃ j, unitsAt k = j * 2 ^ s) ∨ s ≠ 0 ∧ unitsAt k < 2 ^ 52 * 2 ^ s := by
  obtain ⟨s', r, rfl, hr, hs⟩ := exists_spacing k
  rw [unitsAt_add hr.le hs]
  rcases Nat.lt_or_ge s' s with hlt | hge
  · right
    refine ⟨by omega, ?_⟩
    calc r * 2 ^ s' < 2 ^ 53 * 2 ^ s' := Nat.mul_lt_mul_of_pos_right hr (Nat.two_pow_pos s')
      _ = 2 ^ 52 * 2 ^ (s' + 1) := by ring
      _ ≤ 2 ^ 52 * 2 ^ s := Nat.mul_le_mul_left _ (Nat.pow_le_pow_right (by decide) hlt)
  · left
    refine ⟨r * 2 ^ (s' - s), ?_⟩
    rw [Nat.mul_assoc, ← Nat.pow_add, Nat.sub_add_cancel hge]

/-- No other of the given magnitudes is closer, and if another one is as close, this one is even. -/
structure ClosestAmong (magnitudes : Set ℕ) (v : ℚ) (m : ℕ) : Prop where
  mem : m ∈ magnitudes
  closest : ∀ k ∈ magnitudes, |(unitsAt m : ℚ) - v| ≤ |(unitsAt k : ℚ) - v|
  even : ∀ k ∈ magnitudes, k ≠ m → |(unitsAt m : ℚ) - v| = |(unitsAt k : ℚ) - v| → m % 2 = 0

/-- A fraction that is rounded to a multiple of its spacing is rounded to the closest magnitude. -/
lemma RoundsTo.closestAmong {v : ℚ} {s r : ℕ} (h : RoundsTo (v / 2 ^ s) r)
    (hupper : v < 2 ^ 53 * 2 ^ s) (hlower : s = 0 ∨ 2 ^ 52 * 2 ^ s ≤ v) :
    ClosestAmong Set.univ v (s * 2 ^ 52 + r) := by
  have hpos : (0 : ℚ) < 2 ^ s := by positivity
  have hr : r ≤ 2 ^ 53 := by
    apply h.le_of_lt
    push_cast
    exact (div_lt_iff₀ hpos).mpr hupper
  have hs : s = 0 ∨ 2 ^ 52 ≤ r := by
    refine hlower.imp id fun hle => h.le_of_le ?_
    push_cast
    exact (le_div_iff₀ hpos).mpr hle
  have hunits : unitsAt (s * 2 ^ 52 + r) = r * 2 ^ s := unitsAt_add hr hs
  have hscaled (j : ℕ) : |((j * 2 ^ s : ℕ) : ℚ) - v| = |(j : ℚ) - v / 2 ^ s| * 2 ^ s := by
    rw [← abs_of_pos hpos, ← abs_mul, abs_of_pos hpos, sub_mul, div_mul_cancel₀ v hpos.ne']
    push_cast
    rfl
  have hclosest (j : ℕ) : |((r * 2 ^ s : ℕ) : ℚ) - v| ≤ |((j * 2 ^ s : ℕ) : ℚ) - v| := by
    rw [hscaled, hscaled]
    exact mul_le_mul_of_nonneg_right (h.closest j) hpos.le
  -- What is below the numbers with this spacing is further off than the first of them.
  have hfurther {k : ℕ} (hpositive : s ≠ 0) (hlt : unitsAt k < 2 ^ 52 * 2 ^ s) :
      |((r * 2 ^ s : ℕ) : ℚ) - v| < |(unitsAt k : ℚ) - v| := by
    have hle := hlower.resolve_left hpositive
    have hlt' : (unitsAt k : ℚ) < 2 ^ 52 * 2 ^ s := by exact_mod_cast hlt
    refine (hclosest (2 ^ 52)).trans_lt ?_
    push_cast
    rw [abs_of_nonpos (by linarith), abs_of_nonpos (by linarith)]
    linarith
  refine ⟨Set.mem_univ _, ?_, ?_⟩
  · intro k _
    rw [hunits]
    rcases unitsAt_multiple_or_lt s k with ⟨j, hj⟩ | ⟨hpositive, hlt⟩
    · rw [hj]
      exact hclosest j
    · exact (hfurther hpositive hlt).le
  · intro k _ hne htie
    rw [hunits] at htie
    rcases unitsAt_multiple_or_lt s k with ⟨j, hj⟩ | ⟨hpositive, hlt⟩
    · have hother : j ≠ r := by
        rintro rfl
        exact hne (unitsAt_strictMono.injective (hj.trans hunits.symm))
      rw [hj, hscaled, hscaled] at htie
      have heven := h.even_of_tie hother (mul_right_cancel₀ hpos.ne' htie)
      omega
    · exact absurd htie (hfurther hpositive hlt).ne

/-- What rounds to a magnitude beyond the last one is closest to the last one. -/
lemma ClosestAmong.min {v : ℚ} {m : ℕ} (h : ClosestAmong Set.univ v m) (top : ℕ) :
    ClosestAmong (Set.Iic top) v (min top m) := by
  by_cases hle : m ≤ top
  · rw [Nat.min_eq_right hle]
    exact ⟨hle, fun k _ => h.closest k trivial, fun k _ => h.even k trivial⟩
  · have hgt : top < m := Nat.lt_of_not_le hle
    rw [Nat.min_eq_left hgt.le]
    -- The last one is no closer than one after it, so the fraction is beyond the last one.
    have hbeyond : (unitsAt top : ℚ) < v := by
      have hlt : (unitsAt top : ℚ) < unitsAt m := by exact_mod_cast unitsAt_strictMono hgt
      have hclosest := h.closest top trivial
      by_contra hnot
      rw [abs_of_nonneg (by linarith), abs_of_nonneg (by linarith)] at hclosest
      linarith
    have hfurther {k : ℕ} (hk : k ≤ top) (hne : k ≠ top) :
        |(unitsAt top : ℚ) - v| < |(unitsAt k : ℚ) - v| := by
      have hlt : (unitsAt k : ℚ) < unitsAt top := by
        exact_mod_cast unitsAt_strictMono (lt_of_le_of_ne hk hne)
      rw [abs_of_neg (by linarith), abs_of_neg (by linarith)]
      linarith
    refine ⟨Set.mem_Iic.mpr le_rfl, ?_, ?_⟩
    · intro k hk
      by_cases hne : k = top
      · rw [hne]
      · exact (hfurther hk hne).le
    · intro k hk hne htie
      exact absurd htie (hfurther hk hne).ne

/-! ## Numbers and their values -/

/-- The number of units of the least positive number in one. -/
def unitsPerOne : ℚ := 2 ^ 1074

lemma unitsPerOne_pos : 0 < unitsPerOne := pow_pos two_pos 1074

/-- The value of a number. An infinity counts as the power of two after the largest number. -/
def value (x : Binary64) : ℚ :=
  (if x.isNegative then -1 else 1) * (x.significand * 2 ^ x.scale / unitsPerOne)

lemma pow_two_52 : Nat.pow 2 52 = 2 ^ 52 := Nat.pow_eq

lemma infinite_eq : infinite = 2045 * 2 ^ 52 + 2 ^ 53 := rfl

lemma unitsAt_magnitude (x : Binary64) : unitsAt x.magnitude = x.significand * 2 ^ x.scale := by
  rw [unitsAt, significand, scale, pow_two_52]

lemma significand_mod_two (x : Binary64) : x.significand % 2 = x.magnitude % 2 := by
  rw [significand, pow_two_52]
  split <;> omega

lemma value_of_not_isNegative {x : Binary64} (h : x.isNegative = false) :
    x.value = unitsAt x.magnitude / unitsPerOne := by
  rw [value, h, unitsAt_magnitude, if_neg Bool.false_ne_true, one_mul]
  push_cast
  rfl

lemma value_of_isNegative {x : Binary64} (h : x.isNegative = true) :
    x.value = -(unitsAt x.magnitude / unitsPerOne) := by
  rw [value, h, unitsAt_magnitude, if_pos rfl, neg_one_mul]
  push_cast
  rfl

lemma isNaN_eq_false_iff {x : Binary64} : x.isNaN = false ↔ x.magnitude ≤ infinite := by
  rw [isNaN, decide_eq_false_iff_not, Nat.not_lt]

lemma infinite_lt : infinite < Nat.pow 2 63 := by decide

lemma toNat_bits_ofMagnitude {m : ℕ} (h : m ≤ infinite) : (ofMagnitude m).bits.toNat = m := by
  have hbound : infinite < 2 ^ 64 := by decide
  rw [ofMagnitude, UInt64.toNat_ofNat']
  exact Nat.mod_eq_of_lt (h.trans_lt hbound)

lemma magnitude_ofMagnitude {m : ℕ} (h : m ≤ infinite) : (ofMagnitude m).magnitude = m := by
  rw [magnitude, toNat_bits_ofMagnitude h]
  exact Nat.mod_eq_of_lt (h.trans_lt infinite_lt)

lemma isNegative_ofMagnitude {m : ℕ} (h : m ≤ infinite) : (ofMagnitude m).isNegative = false := by
  rw [isNegative, toNat_bits_ofMagnitude h, decide_eq_false_iff_not, Nat.not_le]
  exact h.trans_lt infinite_lt

lemma isNaN_ofMagnitude {m : ℕ} (h : m ≤ infinite) : (ofMagnitude m).isNaN = false := by
  rw [isNaN_eq_false_iff, magnitude_ofMagnitude h]
  exact h

lemma value_ofMagnitude {m : ℕ} (h : m ≤ infinite) :
    (ofMagnitude m).value = unitsAt m / unitsPerOne := by
  rw [value_of_not_isNegative (isNegative_ofMagnitude h), magnitude_ofMagnitude h]

lemma eq_ofMagnitude {x : Binary64} (h : x.isNegative = false) : x = ofMagnitude x.magnitude := by
  have hlt : x.bits.toNat < Nat.pow 2 63 := Nat.not_le.mp (of_decide_eq_false h)
  rw [magnitude, Nat.mod_eq_of_lt hlt, ofMagnitude, UInt64.ofNat_toNat]

/-! ## The nearest number -/

/-- A number without a sign such that no number is closer to the fraction. Where another one is as
close, the significand is even. -/
structure IsNearest (q : ℚ) (x : Binary64) : Prop where
  isNegative_eq : x.isNegative = false
  isNaN_eq : x.isNaN = false
  closest : ∀ y : Binary64, y.isNaN = false → |x.value - q| ≤ |y.value - q|
  even : ∀ y : Binary64, y.isNaN = false → y.value ≠ x.value → |x.value - q| = |y.value - q| →
    x.significand % 2 = 0

/-- The number of the same magnitude without a sign is at least as close. -/
lemma abs_unitsAt_magnitude_le {q : ℚ} (hq : 0 ≤ q) (y : Binary64) :
    |(unitsAt y.magnitude : ℚ) / unitsPerOne - q| ≤ |y.value - q| := by
  cases hsign : y.isNegative with
  | false => rw [value_of_not_isNegative hsign]
  | true =>
    have hunits : 0 ≤ (unitsAt y.magnitude : ℚ) / unitsPerOne :=
      div_nonneg (Nat.cast_nonneg _) unitsPerOne_pos.le
    rw [value_of_isNegative hsign, neg_sub_left, abs_neg, abs_of_nonneg (add_nonneg hq hunits)]
    exact abs_le.mpr ⟨by linarith, by linarith⟩

lemma abs_unitsAt_div_sub (k : ℕ) (q : ℚ) :
    |(unitsAt k : ℚ) / unitsPerOne - q| = |(unitsAt k : ℚ) - q * unitsPerOne| / unitsPerOne := by
  rw [← abs_of_pos unitsPerOne_pos, ← abs_div, abs_of_pos unitsPerOne_pos, sub_div,
    mul_div_cancel_right₀ q unitsPerOne_pos.ne']

lemma ClosestAmong.isNearest {q : ℚ} {m : ℕ} (hq : 0 ≤ q)
    (h : ClosestAmong (Set.Iic infinite) (q * unitsPerOne) m) : (ofMagnitude m).IsNearest q := by
  have hm : m ≤ infinite := h.mem
  have hclosest {k : ℕ} (hk : k ≤ infinite) :
      |(unitsAt m : ℚ) / unitsPerOne - q| ≤ |(unitsAt k : ℚ) / unitsPerOne - q| := by
    rw [abs_unitsAt_div_sub, abs_unitsAt_div_sub]
    exact div_le_div_of_nonneg_right (h.closest k hk) unitsPerOne_pos.le
  refine ⟨isNegative_ofMagnitude hm, isNaN_ofMagnitude hm, ?_, ?_⟩
  · intro y hy
    rw [value_ofMagnitude hm]
    exact (hclosest (isNaN_eq_false_iff.mp hy)).trans (abs_unitsAt_magnitude_le hq y)
  · intro y hy hne htie
    have hk := isNaN_eq_false_iff.mp hy
    rw [value_ofMagnitude hm] at hne htie
    rw [significand_mod_two, magnitude_ofMagnitude hm]
    by_cases hsame : y.magnitude = m
    · -- Such a number differs in its sign only, so zero would be closer than both.
      cases hsign : y.isNegative with
      | false => exact absurd (hsame ▸ value_of_not_isNegative hsign) hne
      | true =>
        have hvalue := value_of_isNegative hsign
        rw [hsame] at hvalue
        have hunits : 0 ≤ (unitsAt m : ℚ) / unitsPerOne :=
          div_nonneg (Nat.cast_nonneg _) unitsPerOne_pos.le
        have hzero := hclosest (Nat.zero_le infinite)
        rw [htie, hvalue, neg_sub_left, abs_neg, abs_of_nonneg (add_nonneg hq hunits),
          show unitsAt 0 = 0 from rfl, Nat.cast_zero, zero_div, zero_sub, abs_neg,
          abs_of_nonneg hq] at hzero
        exact absurd (by linarith) hne
    · refine h.even y.magnitude hk hsame ?_
      have hequal := le_antisymm (hclosest hk)
        ((abs_unitsAt_magnitude_le hq y).trans htie.symm.le)
      rw [abs_unitsAt_div_sub, abs_unitsAt_div_sub] at hequal
      exact (div_left_inj' unitsPerOne_pos.ne').mp hequal

/-- Numbers without a sign are in the order of their magnitudes. -/
lemma value_ofMagnitude_lt {m k : ℕ} (h : m < k) (hk : k ≤ infinite) :
    (ofMagnitude m).value < (ofMagnitude k).value := by
  rw [value_ofMagnitude (h.le.trans hk), value_ofMagnitude hk]
  exact div_lt_div_of_pos_right (Nat.cast_lt.mpr (unitsAt_strictMono h)) unitsPerOne_pos

lemma abs_sub_lt_of_between {u v w q : ℚ} (huv : u < v) (hvw : v < w)
    (htie : |u - q| = |w - q|) : |v - q| < |u - q| := by
  have hmiddle : u - q = -(w - q) := by
    refine (abs_eq_abs.mp htie).resolve_left fun heq => ?_
    linarith
  rw [abs_of_neg (show u - q < 0 by linarith)]
  exact abs_lt.mpr ⟨by linarith, by linarith⟩

lemma IsNearest.magnitude_le {q : ℚ} {x : Binary64} (h : x.IsNearest q) :
    x.magnitude ≤ infinite :=
  isNaN_eq_false_iff.mp h.isNaN_eq

/-- Two numbers that are nearest to the same fraction would be neighbours with even significands. -/
lemma IsNearest.magnitude_not_lt {q : ℚ} {x y : Binary64} (hx : x.IsNearest q)
    (hy : y.IsNearest q) : ¬x.magnitude < y.magnitude := by
  intro hlt
  have hle := hy.magnitude_le
  have hvalue {m : ℕ} (hbelow : m < y.magnitude) : (ofMagnitude m).value < y.value := by
    rw [eq_ofMagnitude hy.isNegative_eq]
    exact value_ofMagnitude_lt hbelow hle
  have hxy : x.value < y.value := by
    rw [eq_ofMagnitude hx.isNegative_eq]
    exact hvalue hlt
  have htie := le_antisymm (hx.closest y hy.isNaN_eq) (hy.closest x hx.isNaN_eq)
  have hxeven := hx.even y hy.isNaN_eq hxy.ne' htie
  have hyeven := hy.even x hx.isNaN_eq hxy.ne htie.symm
  rw [significand_mod_two] at hxeven hyeven
  -- Both are even, so a number stands between them, and it is closer.
  have hbetween : x.magnitude + 1 < y.magnitude := by omega
  have hclosest := hx.closest _ (isNaN_ofMagnitude (hbetween.le.trans hle))
  have hupper := hvalue hbetween
  have hlower : x.value < (ofMagnitude (x.magnitude + 1)).value := by
    nth_rewrite 1 [eq_ofMagnitude hx.isNegative_eq]
    exact value_ofMagnitude_lt (Nat.lt_succ_self _) (hbetween.le.trans hle)
  exact absurd hclosest (not_le.mpr (abs_sub_lt_of_between hlower hupper htie))

/-- A fraction has one nearest number at most. -/
theorem IsNearest.unique {q : ℚ} {x y : Binary64} (hx : x.IsNearest q) (hy : y.IsNearest q) :
    x = y := by
  have hsame : x.magnitude = y.magnitude :=
    Nat.le_antisymm (Nat.not_lt.mp (hy.magnitude_not_lt hx)) (Nat.not_lt.mp (hx.magnitude_not_lt hy))
  rw [eq_ofMagnitude hx.isNegative_eq, eq_ofMagnitude hy.isNegative_eq, hsame]

/-! ## Infinity -/

lemma value_infinite : (ofMagnitude infinite).value = 2 ^ 1024 := by
  rw [value_ofMagnitude le_rfl, infinite_eq, unitsAt_add le_rfl (by omega), unitsPerOne,
    Nat.cast_mul, Nat.cast_pow, Nat.cast_pow, Nat.cast_ofNat,
    div_eq_iff (pow_ne_zero _ two_ne_zero), ← pow_add, ← pow_add]

lemma value_largest : (ofMagnitude (infinite - 1)).value = 2 ^ 1024 - 2 * 2 ^ 970 := by
  have hsignificand : ((2 ^ 53 - 1 : ℕ) : ℚ) = 2 ^ 53 - 1 := by norm_num
  rw [value_ofMagnitude (Nat.sub_le _ _), infinite_eq, Nat.add_sub_assoc (by decide),
    unitsAt_add (by omega) (by omega), unitsPerOne, Nat.cast_mul, Nat.cast_pow, Nat.cast_ofNat,
    hsignificand, div_eq_iff (pow_ne_zero _ two_ne_zero), sub_mul, one_mul, sub_mul, ← pow_succ',
    ← pow_add, ← pow_add, ← pow_add]

/-- Infinity is nearest from half a spacing beyond the largest number on. -/
theorem IsNearest.isInfinite_iff {q : ℚ} {x : Binary64} (h : x.IsNearest q) :
    x.isInfinite = true ↔ 2 ^ 1024 - 2 ^ 970 ≤ q := by
  have hhalf : (0 : ℚ) < 2 ^ 970 := pow_pos two_pos 970
  have hinfinite := value_infinite
  have hlargest := value_largest
  generalize (2 : ℚ) ^ 970 = half at hhalf hlargest ⊢
  generalize (2 : ℚ) ^ 1024 = top at hinfinite hlargest ⊢
  have hx := eq_ofMagnitude h.isNegative_eq
  rw [isInfinite, beq_iff_eq]
  constructor
  · intro hmagnitude
    have hclosest := h.closest _ (isNaN_ofMagnitude (Nat.sub_le infinite 1))
    rw [hx, hmagnitude, hinfinite, hlargest] at hclosest
    by_contra hbelow
    rw [abs_of_nonneg (by linarith)] at hclosest
    rcases abs_cases (top - 2 * half - q) with ⟨habs, -⟩ | ⟨habs, -⟩ <;> linarith
  · intro hreach
    by_contra hfinite
    have hclosest := h.closest _ (isNaN_ofMagnitude le_rfl)
    rw [hinfinite] at hclosest
    have hbelow : x.magnitude ≤ infinite - 1 := by
      have := h.magnitude_le
      omega
    rcases Nat.lt_or_eq_of_le hbelow with hlt | hlast
    · have hvalue := value_ofMagnitude_lt hlt (Nat.sub_le _ _)
      rw [← hx, hlargest] at hvalue
      rw [abs_of_neg (by linarith)] at hclosest
      rcases abs_cases (top - q) with ⟨habs, -⟩ | ⟨habs, -⟩ <;> linarith
    · -- The largest number is as close as infinity at best, and its significand is odd.
      have hvalue : x.value = top - 2 * half := by rw [hx, hlast, hlargest]
      have htie : |x.value - q| = |top - q| := by
        have hnegative : x.value - q < 0 := by linarith
        refine le_antisymm hclosest ?_
        rw [abs_of_neg hnegative]
        rcases abs_cases (top - q) with ⟨habs, -⟩ | ⟨habs, -⟩ <;> linarith
      have heven := h.even _ (isNaN_ofMagnitude le_rfl) (by rw [hinfinite]; linarith)
        (hinfinite ▸ htie)
      rw [significand_mod_two, hlast] at heven
      exact absurd heven (by decide)

/-! ## Fractions and numerals -/

/-- The spacing that is chosen for a fraction is that of the numbers around it. -/
lemma spacing_bounds (a : ℕ) {d : ℕ} (hd : 0 < d) :
    (a / d : ℚ) < 2 ^ 53 * 2 ^ ((a / d).log2 - 52) ∧
      ((a / d).log2 - 52 = 0 ∨ 2 ^ 52 * 2 ^ ((a / d).log2 - 52) ≤ (a / d : ℚ)) := by
  have hd' : (0 : ℚ) < d := Nat.cast_pos.mpr hd
  constructor
  · have hwhole : a / d + 1 ≤ 2 ^ 53 * 2 ^ ((a / d).log2 - 52) := by
      rw [← Nat.pow_add]
      exact Nat.lt_log2_self.trans_le (Nat.pow_le_pow_right (by decide) (by omega))
    rw [div_lt_iff₀ hd']
    calc (a : ℚ) < ((d * (a / d + 1) : ℕ) : ℚ) := Nat.cast_lt.mpr (Nat.lt_mul_div_succ a hd)
      _ ≤ ((d * (2 ^ 53 * 2 ^ ((a / d).log2 - 52)) : ℕ) : ℚ) :=
        Nat.cast_le.mpr (Nat.mul_le_mul_left d hwhole)
      _ = 2 ^ 53 * 2 ^ ((a / d).log2 - 52) * d := by
        push_cast
        ring
  · by_cases hsmall : (a / d).log2 - 52 = 0
    · exact .inl hsmall
    · have hne : a / d ≠ 0 := by
        intro hzero
        rw [hzero] at hsmall
        exact hsmall rfl
      have hwhole : 2 ^ 52 * 2 ^ ((a / d).log2 - 52) ≤ a / d := by
        rw [← Nat.pow_add, show 52 + ((a / d).log2 - 52) = (a / d).log2 by omega]
        exact Nat.log2_self_le hne
      right
      calc (2 ^ 52 * 2 ^ ((a / d).log2 - 52) : ℚ)
          = ((2 ^ 52 * 2 ^ ((a / d).log2 - 52) : ℕ) : ℚ) := by push_cast; rfl
        _ ≤ ((a / d : ℕ) : ℚ) := Nat.cast_le.mpr hwhole
        _ ≤ a / d := Nat.cast_div_le

lemma closestAmong_roundHalfEven (a : ℕ) {d : ℕ} (hd : 0 < d) :
    ClosestAmong (Set.Iic infinite) (a / d) (min infinite (((a / d).log2 - 52) * Nat.pow 2 52 +
      roundHalfEven a (d * Nat.pow 2 ((a / d).log2 - 52)))) := by
  obtain ⟨hupper, hlower⟩ := spacing_bounds a hd
  generalize (a / d).log2 - 52 = s at hupper hlower ⊢
  have hrounds := roundsTo_roundHalfEven a (Nat.mul_pos hd (Nat.two_pow_pos s))
  rw [Nat.cast_mul, Nat.cast_pow, Nat.cast_ofNat, ← div_div] at hrounds
  exact (hrounds.closestAmong hupper hlower).min infinite

theorem isNearest_ofRatio (n : ℕ) {d : ℕ} (hd : 0 < d) : (ofRatio n d).IsNearest (n / d) := by
  have hunits (e : ℕ) : (n / d : ℚ) * 2 ^ e = (n * Nat.pow 2 e : ℕ) / d := by
    rw [Nat.cast_mul, Nat.pow_eq, Nat.cast_pow, Nat.cast_ofNat, div_mul_eq_mul_div]
  have hratio : (0 : ℚ) ≤ n / d := div_nonneg (Nat.cast_nonneg n) (Nat.cast_nonneg d)
  refine ClosestAmong.isNearest hratio ?_
  rw [unitsPerOne, hunits]
  exact closestAmong_roundHalfEven (n * Nat.pow 2 1074) hd

lemma digitsValue_eq_ofDigits (digits : List Char) :
    digitsValue digits = Nat.ofDigits 10 (digits.reverse.map fun c => c.toNat - '0'.toNat) := by
  rw [Nat.ofDigits_eq_foldr, List.foldr_map, List.foldr_reverse, digitsValue]
  congr 1
  funext n c
  rw [Nat.add_comm]
  rfl

lemma digitsValue_append (whole fraction : List Char) :
    digitsValue (whole ++ fraction) =
      digitsValue whole * 10 ^ fraction.length + digitsValue fraction := by
  rw [digitsValue_eq_ofDigits, List.reverse_append, List.map_append, Nat.ofDigits_append,
    List.length_map, List.length_reverse, ← digitsValue_eq_ofDigits, ← digitsValue_eq_ofDigits,
    Nat.mul_comm, Nat.add_comm]

/-- A text denotes a number exactly if it is a numeral, and then the number nearest to what its
digits before and after the point come to. -/
theorem ofNumeral?_eq_some_iff {cs : List Char} {x : Binary64} :
    ofNumeral? cs = some x ↔ ∃ whole fraction, NumeralParts cs whole fraction ∧
      x.IsNearest (digitsValue whole + digitsValue fraction / 10 ^ fraction.length) := by
  have hnearest (whole fraction : List Char) :
      (ofRatio (digitsValue (whole ++ fraction)) (Nat.pow 10 fraction.length)).IsNearest
        (digitsValue whole + digitsValue fraction / 10 ^ fraction.length) := by
    have hpos : (0 : ℚ) < 10 ^ fraction.length := by positivity
    have hsum : (digitsValue whole + digitsValue fraction / 10 ^ fraction.length : ℚ) =
        digitsValue (whole ++ fraction) / (Nat.pow 10 fraction.length : ℕ) := by
      rw [digitsValue_append, Nat.pow_eq]
      push_cast
      rw [add_div, mul_div_cancel_right₀ _ hpos.ne']
    rw [hsum]
    exact isNearest_ofRatio _ (Nat.pow_pos (by decide))
  constructor
  · intro h
    obtain ⟨⟨digits, places⟩, hdigits, rfl⟩ := Option.map_eq_some_iff.mp h
    obtain ⟨whole, fraction, hparts, rfl, rfl⟩ := parts_of_numeralDigits? hdigits
    exact ⟨whole, fraction, hparts, hnearest whole fraction⟩
  · rintro ⟨whole, fraction, hparts, hx⟩
    rw [ofNumeral?, hparts.numeralDigits?, Option.map_some]
    exact congrArg some ((hnearest whole fraction).unique hx)

end ThreeAddress.Binary64
