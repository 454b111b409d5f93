/-!
# Ranges of code points

A property of characters is given by the closed ranges of code points that have it, in ascending
order. A search ends at the first range that starts beyond the code point, so the characters in
common use are decided after a few steps.
-/
namespace ThreeAddress.Text

/-- Closed ranges of code points, in ascending order and apart from each other. -/
abbrev Ranges := List (Nat × Nat)

/-- Whether a code point lies in one of the ranges. -/
def Ranges.contains : Ranges → Nat → Bool
  | [], _ => false
  | (first, last) :: rest, code =>
      if code < first then false else if code ≤ last then true else Ranges.contains rest code

end ThreeAddress.Text
