import ThreeAddress.Text.Ranges

/-!
# Blank characters

Spaces, tabs, line ends and the other characters with the Unicode property `White_Space`,
version 17.
-/
namespace ThreeAddress.Text

/-- Code points with the property `White_Space`. -/
def blank : Ranges := [
  (0x0009, 0x000D), (0x0020, 0x0020), (0x0085, 0x0085), (0x00A0, 0x00A0), (0x1680, 0x1680),
  (0x2000, 0x200A), (0x2028, 0x2029), (0x202F, 0x202F), (0x205F, 0x205F), (0x3000, 0x3000)]

/-- A character that only separates. -/
def isBlank (c : Char) : Bool := blank.contains c.toNat

end ThreeAddress.Text
