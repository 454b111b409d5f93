import ThreeAddress.Event
import ThreeAddress.Listing.Basic

/-!
# Editing listings

An edit replaces one operand of one triad. Numbers, operators and results stay as they are.
-/
namespace ThreeAddress

/-- A new operand for one side of the triad with a number. -/
structure Edit where
  number : Nat
  side : Side
  operand : Operand
  deriving DecidableEq, Repr

/-- No triad has the number that an edit names. -/
structure NoSuchTriad where
  number : Nat
  deriving DecidableEq, Repr

def NoSuchTriad.message (e : NoSuchTriad) : String :=
  "no triad with sequence number " ++ toString e.number

namespace Listing

/-- The operand that the edit replaces, and the listing after it. -/
def edit (l : Listing) (e : Edit) : Except NoSuchTriad (Operand × Listing) :=
  match l.indexOf? e.number with
  | none => .error ⟨e.number⟩
  | some i =>
      let t := l.triadAt i
      .ok (t.operand e.side, l.setAt i (t.setOperand e.side e.operand))

/-- The edit with its event: one that fails reports none. -/
def editTraced (l : Listing) (e : Edit) : Traced (Except NoSuchTriad (Operand × Listing)) :=
  match l.edit e with
  | .ok (old, edited) =>
      ⟨.ok (old, edited), #[.replaced e.number e.side old e.operand]⟩
  | .error unknown => ⟨.error unknown, #[]⟩

end Listing
end ThreeAddress
