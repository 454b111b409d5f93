import ThreeAddress.Binary64.Basic

/-!
# Reading numerals

A numeral is a run of digits with at most one point and at least one digit. It denotes a fraction,
which is rounded to the nearest number, a half going to the even neighbour. A fraction beyond the
largest number gives infinity, and one too close to zero gives zero.
-/
namespace ThreeAddress.Binary64

/-- The quotient rounded to the nearest natural number, a half to the even one. -/
def roundHalfEven (n d : Nat) : Nat :=
  let q := n / d
  let twice := 2 * (n % d)
  if twice < d || twice == d && q % 2 == 0 then q else q + 1

/-- The number nearest to a fraction. The rounded significand is added to the exponent field, so
that one that rounds up to the next power of two carries into the exponent. -/
def ofRatio (n d : Nat) : Binary64 :=
  let units := n * Nat.pow 2 1074
  let scale := (units / d).log2 - 52
  let rounded := roundHalfEven units (d * Nat.pow 2 scale)
  ofMagnitude (min infinite (scale * Nat.pow 2 52 + rounded))

/-- The natural number that a list of digits denotes. -/
def digitsValue (digits : List Char) : Nat :=
  digits.foldl (fun n c => 10 * n + (c.toNat - '0'.toNat)) 0

/-- The digits of a numeral and how many of them follow the point. -/
def numeralDigits? (cs : List Char) : Option (List Char × Nat) :=
  let whole := cs.takeWhile Char.isDigit
  match cs.dropWhile Char.isDigit with
  | [] => if whole.isEmpty then none else some (whole, 0)
  | point :: fraction =>
      if point == '.' && fraction.all Char.isDigit && !(whole.isEmpty && fraction.isEmpty) then
        some (whole ++ fraction, fraction.length)
      else none

/-- The number that a numeral denotes, if the text is one. -/
def ofNumeral? (cs : List Char) : Option Binary64 :=
  (numeralDigits? cs).map fun (digits, places) => ofRatio (digitsValue digits) (Nat.pow 10 places)

end ThreeAddress.Binary64
