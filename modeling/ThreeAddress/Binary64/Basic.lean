/-!
# Double-precision numbers

A number is kept as the 64 bits of its interchange format: a sign, eleven bits of exponent and 52
bits of fraction. A finite number is `significand * 2 ^ scale` units of `2 ^ -1074`, the least
positive number, so that everything said of it is said in natural numbers. Statements only read,
compare and write numbers; there is no arithmetic.
-/
namespace ThreeAddress

structure Binary64 where
  bits : UInt64
  deriving DecidableEq, Repr

namespace Binary64

/-- The magnitude of both infinities; a larger one is no number. -/
def infinite : Nat := 2047 * Nat.pow 2 52

/-- The bits below the sign. -/
def magnitude (x : Binary64) : Nat := x.bits.toNat % Nat.pow 2 63

/-- The number without a sign that has a given magnitude. -/
def ofMagnitude (n : Nat) : Binary64 := ⟨UInt64.ofNat n⟩

def isNegative (x : Binary64) : Bool := decide (Nat.pow 2 63 ≤ x.bits.toNat)

def isNaN (x : Binary64) : Bool := decide (infinite < x.magnitude)

def isInfinite (x : Binary64) : Bool := x.magnitude == infinite

/-- The binary logarithm of the spacing of numbers at `x`, in units of `2 ^ -1074`. -/
def scale (x : Binary64) : Nat := x.magnitude / Nat.pow 2 52 - 1

/-- The magnitude of a finite number in multiples of its spacing. -/
def significand (x : Binary64) : Nat :=
  if x.magnitude < Nat.pow 2 52 then x.magnitude
  else Nat.pow 2 52 + x.magnitude % Nat.pow 2 52

/-- Equality of numbers: what is no number differs from all, and the two zeros are one. -/
def equals (x y : Binary64) : Bool :=
  !x.isNaN && !y.isNaN && (x.bits == y.bits || x.magnitude == 0 && y.magnitude == 0)

end Binary64
end ThreeAddress
