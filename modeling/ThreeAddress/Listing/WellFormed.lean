import ThreeAddress.Listing.Basic

/-!
# Well-formed listings

A listing is well formed when it closes with its one assignment, every other triad keeps its result
in the temporary of its own number, and every temporary used is kept by some triad. The check
names the first fault: of the listing as a whole, then of results, then of operands.
-/
namespace ThreeAddress

/-- What is wrong with a listing. -/
inductive Malformation where
  | empty
  | notClosed
  | missingResult (number : Nat)
  | wrongResult (number temporary : Nat)
  | unknownTemporary (number temporary : Nat)
  deriving DecidableEq, Repr

namespace Malformation

def message : Malformation → String
  | empty => "the listing contains no triads"
  | notClosed => "the last triad is not an assignment"
  | missingResult number =>
      "triad " ++ toString number ++ " has no result but is not the closing assignment"
  | wrongResult number temporary =>
      "triad " ++ toString number ++ " produces temporary " ++ temporaryText temporary ++
        ", which should be " ++ temporaryText number
  | unknownTemporary number temporary =>
      "triad " ++ toString number ++ " refers to temporary " ++ temporaryText temporary ++
        ", which no triad produces"

end Malformation

/-- The fault in a triad's result: it has to be kept under the triad's number, and can be missing
only under the number of the closing triad. -/
def Triad.resultFault? (closing : Nat) (t : Triad) : Option Malformation :=
  match t.result? with
  | some temporary =>
      if temporary = t.number then none else some (.wrongResult t.number temporary)
  | none => if t.number = closing then none else some (.missingResult t.number)

/-- The first operand of a triad, left before right, that uses a temporary not kept. -/
def Triad.operandFault? (produced : NumberSet) (t : Triad) : Option Malformation :=
  t.operands.findSome? fun operand =>
    match operand.referenced? with
    | some temporary =>
        if produced.contains temporary then none else some (.unknownTemporary t.number temporary)
    | none => none

/-- The first fault of a listing. -/
def Listing.fault? (l : Listing) : Option Malformation :=
  match l.last? with
  | none => some .empty
  | some closing =>
      if closing.operator ≠ .assign ∨ closing.result?.isSome then some .notClosed
      else
        let triads := l.triads.toList
        let produced := l.produced
        (triads.findSome? (Triad.resultFault? closing.number)).or
          (triads.findSome? (Triad.operandFault? produced))

/-- Accepts a well-formed listing. -/
def Listing.check (l : Listing) : Except Malformation Unit :=
  match l.fault? with
  | some fault => .error fault
  | none => .ok ()

end ThreeAddress
