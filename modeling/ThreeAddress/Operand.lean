import ThreeAddress.Binary64.Shortest

/-!
# Operands

What a triad works on: a named variable, a constant, the result of another triad, or one of these
with its sign changed any number of times.
-/
namespace ThreeAddress

inductive Operand where
  | identifier (name : String)
  | number (value : Binary64)
  | character (value : Char)
  /-- The result kept under an identifier. -/
  | temporary (id : Nat)
  | negated (operand : Operand)
  deriving DecidableEq, Repr

/-- How a temporary is written. -/
def temporaryText (id : Nat) : String := "^" ++ toString id

namespace Operand

def text : Operand → String
  | identifier name => name
  | number value => value.text
  | character value => String.singleton value
  | temporary id => temporaryText id
  | negated operand => "- " ++ operand.text

/-- The temporary that the operand itself is. A negated temporary does not count. -/
def temporary? : Operand → Option Nat
  | temporary id => some id
  | _ => none

/-- The temporary that the operand refers to, also under negations. -/
def referenced? : Operand → Option Nat
  | temporary id => some id
  | negated operand => operand.referenced?
  | _ => none

/-- The triad that has to be expanded for this operand. Numbers start at one, so `^0` names none. -/
def target? : Operand → Option Nat
  | temporary (id + 1) => some (id + 1)
  | _ => none

/-- The number that the operand itself is. -/
def number? : Operand → Option Binary64
  | number value => some value
  | _ => none

/-- Equality with numbers compared as numbers. -/
def equals : Operand → Operand → Bool
  | identifier x, identifier y => x == y
  | number x, number y => x.equals y
  | character x, character y => x == y
  | temporary x, temporary y => x == y
  | negated x, negated y => x.equals y
  | _, _ => false

end Operand
end ThreeAddress
