import ThreeAddress.Proofs.Places

/-!
# The points of a reading

Reading a statement is a sequence of acts, and between any two of them the session has some state.
The points of a reader are these sessions, and for each of them the brackets and signs that enclose
the place. They are read off the syntax of the reader, along the outcomes of its parts. A bracket or
sign encloses from the moment its level is entered, or refused, to the moment it is left.
-/
namespace ThreeAddress.Statement

/-- A point of a reading. -/
structure Point where
  session : Session
  /-- The places of the brackets and signs around the point, the innermost first. -/
  enclosing : List Cursor := []
  /-- Whether the depth is counted down next. -/
  leaving : Bool := false

namespace Reader

/-- Whether the reader is a single act. -/
def isAct : {α : Type} → Reader α → Bool
  | _, .bind .. | _, .enclosed .. | _, .rounds .. => false
  | _, _ => true

/-- The points that a reader passes from a session on. -/
inductive Passes : {α : Type} → Reader α → Session → Point → Prop where
  | start {α : Type} (r : Reader α) (s : Session) : Passes r s { session := s }
  | act {α : Type} {r : Reader α} (single : r.isAct) (s : Session) :
      Passes r s { session := (r.run s).session }
  | first {α β : Type} {first : Reader α} {next : α → Reader β} {s : Session} {p : Point}
      (passes : Passes first s p) : Passes (.bind first next) s p
  | next {α β : Type} {first : Reader α} {next : α → Reader β} {s t : Session} {a : α} {p : Point}
      (done : first.run s = .done a t) (passes : Passes (next a) t p) :
      Passes (.bind first next) s p
  | otherwise {α : Type} {opening : Opening} {inside otherwise : Reader α} {s : Session} {p : Point}
      (other : s.cursor.peek? ≠ some opening.char) (passes : Passes otherwise s p) :
      Passes (.enclosed opening inside otherwise) s p
  | opened {α : Type} {opening : Opening} {inside otherwise : Reader α} {s : Session}
      {cs : List Char} (comes : s.cursor.rest = opening.char :: cs) :
      Passes (.enclosed opening inside otherwise) s
        { session := { s with cursor := s.cursor.past opening.char cs } }
  | entered {α : Type} {opening : Opening} {inside otherwise : Reader α} {s : Session}
      {cs : List Char} (comes : s.cursor.rest = opening.char :: cs) :
      Passes (.enclosed opening inside otherwise) s
        { session := s.behind opening cs, enclosing := [s.cursor] }
  | inside {α : Type} {opening : Opening} {inside otherwise : Reader α} {s : Session}
      {cs : List Char} {p : Point} (comes : s.cursor.rest = opening.char :: cs)
      (room : s.depth < nestingLimit) (passes : Passes inside (s.behind opening cs) p) :
      Passes (.enclosed opening inside otherwise) s
        { p with enclosing := p.enclosing ++ [s.cursor] }
  | leaving {α : Type} {opening : Opening} {inside otherwise : Reader α} {s t : Session}
      {cs : List Char} {a : α} (comes : s.cursor.rest = opening.char :: cs)
      (room : s.depth < nestingLimit) (done : inside.run (s.behind opening cs) = .done a t) :
      Passes (.enclosed opening inside otherwise) s
        { session := t, enclosing := [s.cursor], leaving := true }
  | left {α : Type} {opening : Opening} {inside otherwise : Reader α} {s t : Session}
      {cs : List Char} {a : α} (comes : s.cursor.rest = opening.char :: cs)
      (room : s.depth < nestingLimit) (done : inside.run (s.behind opening cs) = .done a t) :
      Passes (.enclosed opening inside otherwise) s
        { session := { t with depth := t.depth - 1 } }
  | operand {level : Precedence} {operand : Reader Operand} {left : Operand} {s : Session}
      {operator : Operator} {cursor : Cursor} {p : Point}
      (sign : nextOperator? level s.cursor = some (operator, cursor))
      (passes : Passes operand { s with cursor } p) : Passes (.rounds level operand left) s p
  | round {level : Precedence} {operand : Reader Operand} {left right : Operand} {s t : Session}
      {operator : Operator} {cursor : Cursor} {p : Point}
      (sign : nextOperator? level s.cursor = some (operator, cursor))
      (done : operand.run { s with cursor } = .done right t)
      (passes : Passes (.rounds level operand (t.emitOperation operator left right).1)
        (t.emitOperation operator left right).2 p) :
      Passes (.rounds level operand left) s p

/-- The session in which a reader ends, or fails, is passed. -/
theorem exists_passes_end {α : Type} (r : Reader α) (s : Session) :
    ∃ p, r.Passes s p ∧ p.session = (r.run s).session := by
  induction r generalizing s with
  | bind first next ihfirst ihnext =>
    show ∃ p, Passes (.bind first next) s p ∧ p.session = ((first >>= next).run s).session
    rw [run_bind]
    cases hrun : first.run s with
    | done a t =>
      obtain ⟨p, hp, hend⟩ := ihnext a t
      exact ⟨p, .next hrun hp, hend⟩
    | failed f t =>
      obtain ⟨p, hp, hend⟩ := ihfirst s
      exact ⟨p, .first hp, by rw [hend, hrun]; rfl⟩
  | enclosed opening inside otherwise ihinside ihotherwise =>
    obtain ⟨hpeek, hrun⟩ | ⟨cs, hrest, ⟨-, hrun⟩ | ⟨hlow, hrun⟩⟩ :=
      run_enclosed_cases opening inside otherwise s
    · obtain ⟨p, hp, hend⟩ := ihotherwise s
      exact ⟨p, .otherwise hpeek hp, by rw [hend, hrun]⟩
    · exact ⟨_, .entered hrest, by rw [hrun]; rfl⟩
    · rw [hrun]
      cases hinside : inside.run (s.behind opening cs) with
      | done a t => exact ⟨_, .left hrest hlow hinside, rfl⟩
      | failed f t =>
        obtain ⟨p, hp, hend⟩ := ihinside (s.behind opening cs)
        exact ⟨_, .inside hrest hlow hp, by rw [hend, hinside]; rfl⟩
  | rounds level operand left ih =>
    refine rounds_induction level operand (P := fun left s o =>
      ∃ p, Passes (.rounds level operand left) s p ∧ p.session = o.session) ?_ ?_ ?_ left s
    · intro left s _
      exact ⟨_, .start _ s, rfl⟩
    · intro left s operator cursor f t hsign hfailed
      obtain ⟨p, hp, hend⟩ := ih { s with cursor }
      exact ⟨p, .operand hsign hp, by rw [hend, hfailed]⟩
    · intro left s operator cursor right t hsign hdone ih
      obtain ⟨p, hp, hend⟩ := ih
      exact ⟨p, .round hsign hdone hp, hend⟩
  | _ => exact ⟨_, .act rfl s, rfl⟩

end Reader

/-- The points of a statement: those of its parts, and the one after the triad that closes it. -/
inductive PassesInStatement (s : Session) : Point → Prop where
  | parts {p : Point} (passes : assignment.Passes s p) : PassesInStatement s p
  | closed {t : Session} {target value : Operand}
      (done : assignment.run s = .done (target, value) t) :
      PassesInStatement s { session := t.emitAssignment target value }

/-- The session before a statement is read and the one in which the reading ends, or fails, are
passed. -/
theorem exists_passesInStatement_ends (s : Session) :
    (∃ p, PassesInStatement s p ∧ p.session = s) ∧
      ∃ p, PassesInStatement s p ∧ p.session = (statement.run s).session := by
  refine ⟨⟨_, .parts (.start _ s), rfl⟩, ?_⟩
  cases hrun : statement.run s with
  | done x u =>
    obtain ⟨target, value, t, hread, rfl⟩ := run_statement_eq_done.mp hrun
    exact ⟨_, .closed hread, rfl⟩
  | failed f u =>
    obtain ⟨p, hp, hend⟩ := assignment.exists_passes_end s
    exact ⟨p, .parts hp, by rw [hend, run_statement_eq_failed.mp hrun]; rfl⟩

end ThreeAddress.Statement
