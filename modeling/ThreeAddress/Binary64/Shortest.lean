import ThreeAddress.Binary64.Basic

/-!
# Writing numbers

A number is written with the fewest digits that read back as the same number. The decimals that do
so fill an interval around it; the coarsest decimal grid with a point in that interval gives the
digits. All decimals are counted in units of `10 ^ -1076`, in which every number, and every end of
such an interval, is a whole number of units. There is no exponent: the digits are filled up with
zeros to the point.
-/
namespace ThreeAddress.Binary64

/-- A value between the ends of the interval of decimals that read back as it. -/
structure Rounding where
  low : Nat
  value : Nat
  high : Nat
  /-- Whether the ends themselves read back as the value. -/
  closed : Bool

namespace Rounding

def contains (r : Rounding) (n : Nat) : Bool :=
  if r.closed then r.low ≤ n && n ≤ r.high else r.low < n && n < r.high

/-- The multiple of a step inside the interval and nearest to the value, the upper one of two
equally near, counted in steps. Only the two neighbours of the value need to be tried. -/
def nearest? (r : Rounding) (step : Nat) : Option Nat :=
  let below := r.value / step
  let above := below + 1
  match r.contains (below * step), r.contains (above * step) with
  | true, true => some (if 2 * (r.value % step) < step then below else above)
  | true, false => some below
  | false, true => some above
  | false, false => none

/-- The multiple of the largest power of ten, from a given one downwards, that lies inside the
interval, with that power. -/
def coarsest (r : Rounding) : Nat → Nat × Nat
  | 0 => (r.value, 0)
  | power + 1 =>
      match r.nearest? (Nat.pow 10 (power + 1)) with
      | some n => (n, power + 1)
      | none => coarsest r power

end Rounding

/-- The decimal units are a fraction `10 ^ -places`. -/
def places : Nat := 1076

/-- The interval of a finite number other than zero. A quarter of the spacing is `5 ^ places` times
a power of two. Below a power of two the numbers lie twice as close as above it. -/
def rounding (x : Binary64) : Rounding :=
  let quarter := Nat.pow 2 x.scale * Nat.pow 5 places
  let m := x.significand
  { low := (4 * m - if m = Nat.pow 2 52 && 0 < x.scale then 1 else 2) * quarter
    value := 4 * m * quarter
    high := (4 * m + 2) * quarter
    closed := m % 2 == 0 }

/-- The fewest digits that read back, as a multiple of a power of ten of decimal units. The search
starts above the largest power in the interval: `0.30103` is more than the logarithm of two. -/
def shortest (x : Binary64) : Nat × Nat :=
  let r := x.rounding
  r.coarsest (r.high.log2 * 30103 / 100000 + 2)

/-- Digits with a number of them, filled up with zeros in front, after the point. -/
def placePoint (digits : List Char) (fraction : Nat) : List Char :=
  let padded := List.replicate (fraction + 1 - digits.length) '0' ++ digits
  let whole := padded.length - fraction
  padded.take whole ++ '.' :: padded.drop whole

/-- The text of a magnitude. -/
def magnitudeText (x : Binary64) : List Char :=
  if x.magnitude = 0 then ['0']
  else
    let (n, power) := x.shortest
    let digits := Nat.toDigits 10 n
    if places ≤ power then digits ++ List.replicate (power - places) '0'
    else placePoint digits (places - power)

/-- The text of a number: positional, without a point for a whole number. -/
def text (x : Binary64) : String :=
  if x.isNaN then "NaN"
  else
    let sign := if x.isNegative then "-" else ""
    if x.isInfinite then sign ++ "inf" else sign ++ String.ofList x.magnitudeText

end ThreeAddress.Binary64
