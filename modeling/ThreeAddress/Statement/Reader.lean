import ThreeAddress.Statement.Reading

/-!
# Readers

A reader says how a phrase is read, as a piece of syntax: single acts, readers in sequence, what a
bracket or a sign encloses, and rounds of operands with signs between them. `Reader.reading` says
what a reader does to a session. What is true of all readers is shown by induction on their syntax,
whatever phrases they read.
-/
namespace ThreeAddress.Statement

/-- What opens one more level of nesting. -/
inductive Opening where
  | bracket
  | sign
  deriving DecidableEq, Repr

def Opening.char : Opening → Char
  | bracket => '('
  | sign => '-'

/-- The operator of a level that comes next, with the cursor after its sign. -/
def nextOperator? (level : Precedence) (cursor : Cursor) : Option (Operator × Cursor) := do
  let (sign, after) ← cursor.next?
  let operator ← level.operator? sign
  return (operator, after)

theorem rest_of_nextOperator? {level : Precedence} {cursor after : Cursor} {operator : Operator}
    (h : nextOperator? level cursor = some (operator, after)) :
    after.rest.length < cursor.rest.length := by
  obtain ⟨⟨sign, next⟩, hn, h⟩ := Option.bind_eq_some_iff.1 h
  obtain ⟨_, _, h⟩ := Option.bind_eq_some_iff.1 h
  cases h
  simp [Cursor.rest_of_next? hn]

/-- Reads operators of one level with their right operands, as many as follow. -/
def chainFrom (level : Precedence) (operand : Reading Operand) (left : Operand) (s : Session) :
    Outcome Operand :=
  match ho : nextOperator? level s.cursor with
  | none => .done left s
  | some (operator, cursor) =>
      have _shorter := rest_of_nextOperator? ho
      match hr : operand.run { s with cursor } with
      | .failed f t => .failed f t
      | .done right t =>
          have _operand_le := operand.unread_le hr
          let emitted := t.emitOperation operator left right
          chainFrom level operand emitted.1 emitted.2
termination_by s.unread
decreasing_by
  simp only [Session.unread, Session.cursor_emitOperation] at *
  omega

theorem unread_chainFrom_le {level : Precedence} {operand : Reading Operand} {left : Operand}
    {s t : Session} {result : Operand} (h : chainFrom level operand left s = .done result t) :
    t.unread ≤ s.unread := by
  rw [chainFrom] at h
  split at h
  · cases h; exact Nat.le_refl _
  · rename_i ho
    split at h
    · exact nomatch h
    · rename_i hr
      have shorter := rest_of_nextOperator? ho
      have operand_le := operand.unread_le hr
      have chain_le := unread_chainFrom_le h
      simp only [Session.unread, Session.cursor_emitOperation] at *
      omega
termination_by s.unread
decreasing_by
  simp only [Session.unread, Session.cursor_emitOperation] at *
  omega

namespace Reading

/-- Gives the next character, without moving. -/
def peek? : Reading (Option Char) where
  run s := .done s.cursor.peek? s
  unread_le h := by cases h; exact Nat.le_refl _

/-- Moves over the next character, if there is one. -/
def skip : Reading Unit where
  run s :=
    match s.cursor.next? with
    | some (_, cursor) => .done () { s with cursor }
    | none => .done () s
  unread_le h := by
    split at h
    · rename_i hn
      cases h
      simp [Session.unread, Cursor.rest_of_next? hn]
    · cases h; exact Nat.le_refl _

/-- Moves over the longest run of characters of a class and gives its value. A run without a value
is refused at its start. -/
def word (p : Char → Bool) (value : List Char → Except Cause α) (stage : Stage) : Reading α where
  run s :=
    let taken := s.cursor.takeWhile p
    match value taken.1 with
    | .ok a => .done a { s with cursor := taken.2 }
    | .error cause => .failed ⟨cause, stage, s.cursor⟩ s
  unread_le {s _ _} h := by
    dsimp only at h
    split at h
    · cases h
      exact Cursor.length_rest_takeWhile_le s.cursor p
    · exact nomatch h

/-- Moves over a token, which has to come next. -/
def expect (token : String) (stage : Stage) : Reading Unit where
  run s :=
    match s.cursor.acceptAll? token.toList with
    | some cursor => .done () { s with cursor }
    | none => .failed ⟨.missing token, stage, s.cursor⟩ s
  unread_le h := by
    split at h
    · rename_i ha
      cases h
      simp [Session.unread, Cursor.rest_of_acceptAll? ha]
    · exact nomatch h

/-- Fails at the place reached. -/
def refuse (cause : Cause) (stage : Stage) : Reading α where
  run s := .failed ⟨cause, stage, s.cursor⟩ s
  unread_le h := nomatch h

/-- Reports that a sum or product is read from here on. -/
def announce (phrase : Precedence) : Reading Unit where
  run s := .done () (s.announce phrase)
  unread_le h := by cases h; exact Nat.le_refl _

/-- Emits the triad that closes a statement. -/
def close (target value : Operand) : Reading Unit where
  run s := .done () (s.emitAssignment target value)
  unread_le h := by cases h; exact Nat.le_refl _

/-- Where the bracket or sign comes next, moves over it and reads inside one level deeper, unless
the limit of nesting is reached. Otherwise reads something else. -/
def enclosed (opening : Opening) (inside otherwise : Reading α) : Reading α where
  run s :=
    match s.cursor.accept? opening.char with
    | none => otherwise.run s
    | some cursor =>
        let inner : Session := { s with cursor, depth := s.depth + 1 }
        if nestingLimit < inner.depth then .failed ⟨.tooDeep, .operand, cursor⟩ inner
        else
          match inside.run inner with
          | .done a t => .done a { t with depth := t.depth - 1 }
          | .failed f t => .failed f t
  unread_le h := by
    dsimp only at h
    split at h
    · exact otherwise.unread_le h
    · rename_i ha
      split at h
      · exact nomatch h
      · split at h
        · rename_i hi
          cases h
          have inside_le := inside.unread_le hi
          simp only [Session.unread, Cursor.rest_of_accept? ha, List.length_cons] at *
          omega
        · exact nomatch h

/-- Reads the operators of one level that follow an operand, with their right operands. -/
def rounds (level : Precedence) (operand : Reading Operand) (left : Operand) : Reading Operand where
  run := chainFrom level operand left
  unread_le := unread_chainFrom_le

end Reading

/-- How a phrase is read. -/
inductive Reader : Type → Type 1 where
  | pure {α : Type} (a : α) : Reader α
  | bind {α β : Type} (first : Reader α) (next : α → Reader β) : Reader β
  | peek? : Reader (Option Char)
  | skip : Reader Unit
  | word {α : Type} (p : Char → Bool) (value : List Char → Except Cause α) (stage : Stage) :
      Reader α
  | expect (token : String) (stage : Stage) : Reader Unit
  | refuse {α : Type} (cause : Cause) (stage : Stage) : Reader α
  | announce (phrase : Precedence) : Reader Unit
  | enclosed {α : Type} (opening : Opening) (inside otherwise : Reader α) : Reader α
  | rounds (level : Precedence) (operand : Reader Operand) (left : Operand) : Reader Operand

namespace Reader

instance : Monad Reader where
  pure := Reader.pure
  bind := Reader.bind

/-- What the reader does. -/
def reading : {α : Type} → Reader α → Reading α
  | _, .pure a => .pure a
  | _, .bind first next => .bind first.reading fun a => (next a).reading
  | _, .peek? => .peek?
  | _, .skip => .skip
  | _, .word p value stage => .word p value stage
  | _, .expect token stage => .expect token stage
  | _, .refuse cause stage => .refuse cause stage
  | _, .announce phrase => .announce phrase
  | _, .enclosed opening inside otherwise => .enclosed opening inside.reading otherwise.reading
  | _, .rounds level operand left => .rounds level operand.reading left

theorem reading_skip : skip.reading = .skip := rfl

theorem reading_word (p : Char → Bool) (value : List Char → Except Cause α) (stage : Stage) :
    (word p value stage).reading = .word p value stage := rfl

theorem reading_expect (token : String) (stage : Stage) :
    (expect token stage).reading = .expect token stage := rfl

theorem reading_enclosed (opening : Opening) (inside otherwise : Reader α) :
    (enclosed opening inside otherwise).reading =
      .enclosed opening inside.reading otherwise.reading := rfl

/-- The outcome of reading from a session on. -/
def run (r : Reader α) (s : Session) : Outcome α := r.reading.run s

@[simp] theorem run_bind (first : Reader α) (next : α → Reader β) (s : Session) :
    (first >>= next).run s =
      match first.run s with
      | .done a t => (next a).run t
      | .failed f t => .failed f t := rfl

end Reader
end ThreeAddress.Statement
