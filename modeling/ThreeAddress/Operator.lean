/-!
# Operators

An assignment, the four binary operations, and the change of sign. Binary operations come in two
levels of precedence: those of a product bind tighter than those of a sum.
-/
namespace ThreeAddress

inductive Operator where
  | assign
  | add
  | subtract
  | multiply
  | divide
  | negate
  deriving DecidableEq, Repr

namespace Operator

def symbol : Operator → String
  | assign => ":="
  | add => "+"
  | subtract => "-"
  | multiply => "*"
  | divide => "/"
  | negate => "-"

/-- Whether the operator computes a value from two operands. -/
def isBinary : Operator → Bool
  | assign | negate => false
  | add | subtract | multiply | divide => true

/-- The operator applied to the texts of its operands; a change of sign shows the left one only. -/
def apply (operator : Operator) (left right : String) : String :=
  match operator with
  | negate => "- " ++ left
  | _ => operator.symbol ++ " (" ++ left ++ " " ++ right ++ ")"

end Operator

/-- The levels of precedence of binary operators. -/
inductive Precedence where
  | sum
  | product
  deriving DecidableEq, Repr

/-- The operator of a level that a sign stands for. -/
def Precedence.operator? : Precedence → Char → Option Operator
  | sum, '+' => some .add
  | sum, '-' => some .subtract
  | product, '*' => some .multiply
  | product, '/' => some .divide
  | _, _ => none

end ThreeAddress
