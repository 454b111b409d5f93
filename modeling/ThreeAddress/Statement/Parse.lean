import ThreeAddress.Binary64.Numeral
import ThreeAddress.Statement.Reader
import ThreeAddress.Text.CharClass

/-!
# Reading statements

A statement assigns an expression to a term and ends with a semicolon. An expression is a sum of
products of atoms; an atom is a term, a bracketed expression, or an atom with its sign changed.
Operators of one level group to the left, and each emits its triad as soon as its right operand is
read. A change of sign emits nothing: it is kept in the operand.

Atoms nest at most `nestingLimit` deep. They are read with room for one level more, which is refused
before it is read, so the recursion on the room never runs out, and more room changes nothing.
-/
namespace ThreeAddress.Statement
open Text

/-- Reads a name; its first character has been seen. -/
def name (stage : Stage) : Reader Operand :=
  .word isNamePart (fun letters => .ok (.identifier (String.ofList letters))) stage

/-- The operand that a run of digits and points stands for. -/
def numeralOperand (digits : List Char) : Except Cause Operand :=
  match Binary64.ofNumeral? digits with
  | some value => .ok (.number value)
  | none => .error (.badNumeral (String.ofList digits))

/-- Reads a numeral. One that denotes no number is refused at its start. -/
def numeral (stage : Stage) : Reader Operand := .word isNumeralPart numeralOperand stage

/-- Reads the rest of a quoted character after the opening quote. -/
def quoted (stage : Stage) : Reader Operand := do
  match ← Reader.peek? with
  | some c =>
      if isQuotable c then
        Reader.skip
        if (← Reader.peek?) = some '\'' then
          Reader.skip
          return .character c
        else Reader.refuse (.badQuote .closing) stage
      else Reader.refuse (.badQuote .content) stage
  | none => Reader.refuse (.badQuote .content) stage

/-- Reads a name, a numeral or a quoted character. -/
def term (stage : Stage) : Reader Operand := do
  match ← Reader.peek? with
  | none => Reader.refuse .ended stage
  | some c =>
      if isNameStart c then name stage
      else if isNumeralPart c then numeral stage
      else if c = '\'' then do
        Reader.skip
        quoted stage
      else Reader.refuse (.unexpected c) stage

/-- Reads operands joined by the operators of one level. -/
def chain (level : Precedence) (operand : Reader Operand) : Reader Operand := do
  Reader.announce level
  let first ← operand
  Reader.rounds level operand first

/-- Reads a sum of products of atoms. -/
def sumOf (atom : Reader Operand) : Reader Operand := chain .sum (chain .product atom)

/-- Reads what a bracket encloses, and the bracket that closes it. -/
def bracketed (nested : Reader Operand) : Reader Operand := do
  let inner ← sumOf nested
  Reader.expect ")" .closingBracket
  return inner

/-- Reads what follows a sign. -/
def signed (nested : Reader Operand) : Reader Operand := do
  let inner ← nested
  return .negated inner

/-- Reads an atom, given how the atoms inside it are read. -/
def atomOver (nested : Reader Operand) : Reader Operand :=
  .enclosed .bracket (bracketed nested) (.enclosed .sign (signed nested) (term .operand))

/-- Reads an atom that may nest as deep as there is room. -/
def atom : Nat → Reader Operand
  | 0 => Reader.refuse .tooDeep .operand
  | room + 1 => atomOver (atom room)

/-- Reads an expression. -/
def expression : Reader Operand := sumOf (atom (nestingLimit + 1))

/-- Reads the target and the value of a statement, which has to take up the whole text. -/
def assignment : Reader (Operand × Operand) := do
  let target ← term .target
  Reader.expect ":=" .assignSign
  let value ← expression
  Reader.expect ";" .ending
  if (← Reader.peek?).isNone then return (target, value)
  else Reader.refuse .leftover .ending

/-- Reads a whole statement and emits the triad that closes it. -/
def statement : Reading Unit := do
  let (target, value) ← assignment.reading
  Reading.close target value

/-- Reads a statement, with the events reported on the way. -/
def parseTraced (source : String) : Traced (Except Failure Listing) :=
  match statement.run { cursor := .start source.toList } with
  | .done () s => ⟨.ok s.listing, s.events⟩
  | .failed f s => ⟨.error f, s.events⟩

/-- The listing of a statement. -/
def parse (source : String) : Except Failure Listing := (parseTraced source).result

end ThreeAddress.Statement
