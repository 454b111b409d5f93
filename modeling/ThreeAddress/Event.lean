import ThreeAddress.Text.Cursor
import ThreeAddress.Triad

/-!
# Events

Reading, editing and rebuilding report what they do as they go. An event keeps the values it is
about; its text is made only when it is shown.
-/
namespace ThreeAddress

/-- How much an event matters. -/
inductive Level where
  | error
  | warn
  | info
  | debug
  | trace
  deriving DecidableEq, Repr

namespace Level

def text : Level → String
  | error => "ERROR"
  | warn => "WARN"
  | info => "INFO"
  | debug => "DEBUG"
  | trace => "TRACE"

/-- The place of a level among all, the gravest first. -/
def rank : Level → Nat
  | error => 0
  | warn => 1
  | info => 2
  | debug => 3
  | trace => 4

end Level

inductive Event where
  /-- Reading of a sum or product starts here. -/
  | reading (phrase : Precedence) (cursor : Cursor)
  | allocated (temporary : Nat)
  | emitted (triad : Triad)
  | replaced (number : Nat) (side : Side) (old new : Operand)
  /-- A triad whose result no other triad uses. -/
  | topLevel (triad : Triad)
  /-- A leaf that stands for its operand slot once more. -/
  | reused (operand : Operand)
  deriving DecidableEq, Repr

namespace Event

def level : Event → Level
  | reading .. | allocated _ | reused _ => .trace
  | emitted _ | replaced .. | topLevel _ => .debug

def message : Event → String
  | reading .sum cursor => "add_expr at '" ++ String.ofList cursor.remainder ++ "'"
  | reading .product cursor => "mul_expr at '" ++ String.ofList cursor.remainder ++ "'"
  | allocated temporary => "allocate temporary " ++ temporaryText temporary
  | emitted triad =>
      "emit " ++ toString triad.number ++ " " ++ triad.text ++
        match triad.result? with
        | some temporary => " -> " ++ temporaryText temporary
        | none => ""
  | replaced number side old new =>
      toString number ++ ": replace " ++ (match side with | .left => "left" | .right => "right") ++
        " operand " ++ old.text ++ " with " ++ new.text
  | topLevel triad => "top-level triad " ++ triad.label
  | reused operand => "reuse leaf " ++ operand.text

end Event

/-- A result with the events reported on the way to it. -/
structure Traced (α : Type) where
  result : α
  events : Array Event

end ThreeAddress
