import ThreeAddress.Text.Alphabetic
import ThreeAddress.Text.Numeric

/-!
# The character classes of statements

A name starts with a letter and goes on with letters, numbers of any script and underscores. A
numeral is written with the ten digits and points. A quoted character is a letter or a number.
-/
namespace ThreeAddress.Text

/-- A letter or a number of some script. -/
def isAlphanumeric (c : Char) : Bool := isAlphabetic c || isNumeric c

/-- A character that can start a name. -/
def isNameStart (c : Char) : Bool := isAlphabetic c

/-- A character that can stand in a name after its start. -/
def isNamePart (c : Char) : Bool := isAlphanumeric c || c == '_'

/-- A character of a numeral. -/
def isNumeralPart (c : Char) : Bool := c.isDigit || c == '.'

/-- A character that can stand between quotes. -/
def isQuotable (c : Char) : Bool := isAlphanumeric c

end ThreeAddress.Text
