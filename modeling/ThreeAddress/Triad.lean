import ThreeAddress.Operand
import ThreeAddress.Operator

/-!
# Triads

One step of a computation: an operator, two operands, and the temporary that keeps the result. The
step that closes a statement assigns and keeps none.
-/
namespace ThreeAddress

/-- The two places for operands. -/
inductive Side where
  | left
  | right
  deriving DecidableEq, Repr

structure Triad where
  /-- The number of the step in its listing. -/
  number : Nat
  operator : Operator
  left : Operand
  right : Operand
  /-- The temporary that keeps the result. -/
  result? : Option Nat
  deriving DecidableEq, Repr

namespace Triad

def text (t : Triad) : String := t.operator.apply t.left.text t.right.text

/-- The triad as a line of a listing. -/
def line (t : Triad) : String := toString t.number ++ " " ++ t.text ++ "\n"

/-- The triad as a label in a tree. -/
def label (t : Triad) : String := toString t.number ++ ": " ++ t.text

def operand (t : Triad) : Side → Operand
  | .left => t.left
  | .right => t.right

def setOperand (t : Triad) : Side → Operand → Triad
  | .left, operand => { t with left := operand }
  | .right, operand => { t with right := operand }

/-- Both operands, left before right. -/
def operands (t : Triad) : List Operand := [t.left, t.right]

/-- Whether two triads have operands that are written alike. -/
def operandsReadAlike (s t : Triad) : Bool :=
  s.left.text == t.left.text && s.right.text == t.right.text

/-- Equality with numbers compared as numbers. -/
def equals (s t : Triad) : Bool :=
  s.number == t.number && s.operator == t.operator && s.left.equals t.left &&
    s.right.equals t.right && s.result? == t.result?

end Triad
end ThreeAddress
