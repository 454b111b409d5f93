import ThreeAddress.Event
import ThreeAddress.Listing.Basic
import ThreeAddress.Numbering
import ThreeAddress.Statement.Failure

/-!
# Sessions and readings

Reading a statement carries along a session: the place reached, the triads emitted, the counters
that number them, the depth of nesting, and the events reported. A failure keeps the session too,
because what was reported before it is still shown.

A reading takes a session to an outcome and never gives back more text than it was given. The bound
is part of the type, so rounds of readings that move over a sign each time come to an end.
-/
namespace ThreeAddress.Statement

/-- What is carried along while a statement is read. -/
structure Session where
  cursor : Cursor
  numbering : Numbering := {}
  listing : Listing := {}
  /-- Brackets and signs that enclose the place reached. -/
  depth : Nat := 0
  events : Array Event := #[]

/-- How reading ends: with a value or with a failure, and the session in either case. -/
inductive Outcome (α : Type) where
  | done (value : α) (session : Session)
  | failed (failure : Failure) (session : Session)

namespace Session

/-- The number of characters still to be read. -/
def unread (s : Session) : Nat := s.cursor.rest.length

/-- Emits the triad of a binary operation and gives the temporary that keeps its result. -/
def emitOperation (s : Session) (operator : Operator) (left right : Operand) : Operand × Session :=
  let (temporary, numbering) := s.numbering.nextTemporary
  let (number, numbering) := numbering.nextTriad
  let triad : Triad := { number, operator, left, right, result? := some temporary }
  (.temporary temporary,
    { s with
      numbering
      listing := s.listing.push triad
      events := (s.events.push (.allocated temporary)).push (.emitted triad) })

/-- Emits the triad that closes a statement. -/
def emitAssignment (s : Session) (left right : Operand) : Session :=
  let (number, numbering) := s.numbering.nextTriad
  let triad : Triad := { number, operator := .assign, left, right, result? := none }
  { s with numbering, listing := s.listing.push triad, events := s.events.push (.emitted triad) }

/-- Reports that a sum or product is read from here on. -/
def announce (s : Session) (phrase : Precedence) : Session :=
  { s with events := s.events.push (.reading phrase s.cursor) }

variable (s : Session) (operator : Operator) (left right : Operand) (phrase : Precedence)

@[simp] theorem cursor_emitOperation : (s.emitOperation operator left right).2.cursor = s.cursor := rfl

@[simp] theorem depth_emitOperation : (s.emitOperation operator left right).2.depth = s.depth := rfl

@[simp] theorem cursor_announce : (s.announce phrase).cursor = s.cursor := rfl

@[simp] theorem depth_announce : (s.announce phrase).depth = s.depth := rfl

end Session

/-- A way from session to outcome that adds nothing to the text. -/
@[ext] structure Reading (α : Type) where
  run : Session → Outcome α
  unread_le : ∀ {s t : Session} {a : α}, run s = .done a t → t.unread ≤ s.unread

namespace Reading

/-- Reads nothing. -/
protected def pure (a : α) : Reading α where
  run s := .done a s
  unread_le h := by cases h; exact Nat.le_refl _

/-- Reads one phrase after another. -/
protected def bind (first : Reading α) (next : α → Reading β) : Reading β where
  run s :=
    match first.run s with
    | .done a t => (next a).run t
    | .failed f t => .failed f t
  unread_le {s _ _} h := by
    split at h
    · rename_i hf
      exact Nat.le_trans ((next _).unread_le h) (first.unread_le hf)
    · exact nomatch h

instance : Monad Reading where
  pure := Reading.pure
  bind := Reading.bind

theorem run_bind (first : Reading α) (next : α → Reading β) (s : Session) :
    (first >>= next).run s =
      match first.run s with
      | .done a t => (next a).run t
      | .failed f t => .failed f t := rfl

instance : LawfulMonad Reading := LawfulMonad.mk' _
  (fun x => by
    ext s
    show (Reading.bind x _).run s = _
    simp only [Reading.bind]
    cases x.run s <;> rfl)
  (fun _ _ => rfl)
  (fun x _ _ => by
    ext s
    simp only [run_bind]
    cases x.run s <;> rfl)

end Reading
end ThreeAddress.Statement
