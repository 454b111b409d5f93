import ThreeAddress.Text.Cursor

/-!
# Why a statement cannot be read

A failure keeps its cause, the part of the statement that was being read, and the place reached.
-/
namespace ThreeAddress.Statement

/-- The part of a statement that was being read. -/
inductive Stage where
  | target
  | assignSign
  | operand
  | closingBracket
  | ending
  deriving DecidableEq, Repr

def Stage.text : Stage → String
  | target => "an assignment target"
  | assignSign => "an assignment operator"
  | operand => "an operand"
  | closingBracket => "the end of a parenthesised expression"
  | ending => "the end of a statement"

/-- What is wrong with a quoted character. -/
inductive QuoteFault where
  | content
  | closing
  deriving DecidableEq, Repr

def QuoteFault.text : QuoteFault → String
  | content => "expected a letter or digit"
  | closing => "expected a closing quote"

/-- Brackets and signs may enclose each other up to this depth. -/
def nestingLimit : Nat := 256

inductive Cause where
  | unexpected (c : Char)
  | missing (token : String)
  | badQuote (fault : QuoteFault)
  | badNumeral (numeral : String)
  | ended
  | leftover
  | tooDeep
  deriving DecidableEq, Repr

def Cause.text : Cause → String
  | unexpected c => "unexpected character '" ++ String.singleton c ++ "'"
  | missing token => "expected token '" ++ token ++ "'"
  | badQuote fault => "malformed character literal: " ++ fault.text
  | badNumeral numeral => "malformed number literal '" ++ numeral ++ "'"
  | ended => "unexpected end of input"
  | leftover => "unexpected input after the statement"
  | tooDeep =>
      "expressions may not nest more than " ++ toString nestingLimit ++ " levels deep"

structure Failure where
  cause : Cause
  stage : Stage
  cursor : Cursor
  deriving DecidableEq, Repr

namespace Failure

/-- The text that was not read. -/
def remainder (f : Failure) : String := String.ofList f.cursor.remainder

/-- The byte position of the failing character. -/
def start (f : Failure) : Nat := f.cursor.position

/-- The number of characters of a statement before the failing one. If no character of the statement
starts at that position, the position stands in for it. -/
def column (f : Failure) (statement : String) : Nat :=
  match Text.takeBytes? f.start statement.toList with
  | some before => before.length
  | none => f.start

/-- The bytes of the failing character; the end of the text counts as one. -/
def length (f : Failure) : Nat :=
  match f.cursor.remainder with
  | [] => 1
  | c :: _ => c.utf8Size

/-- The byte position after the failing character. -/
def stop (f : Failure) : Nat := f.start + f.length

def message (f : Failure) : String :=
  f.cause.text ++ " when parsing " ++ f.stage.text ++ ", remaining input: '" ++ f.remainder ++ "'"

end Failure
end ThreeAddress.Statement
