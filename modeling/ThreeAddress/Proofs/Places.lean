import ThreeAddress.Proofs.ReadSteps

/-!
# Places in a text

A cursor that starts at the beginning of a text stands between two of its characters ever after:
what was delivered and what is still to be delivered make up the text, and the position counts the
bytes of the former. So a place is determined by the text that follows it.

That readers keep this is an instance of a principle for all of them: a property of sessions that is
kept by moving on in the text, changing the level, announcing a phrase and emitting an operation is
kept by every reader, also where it fails. `Reader.Runs` says once in which ways readers come to
their outcomes, and the principle is an induction on it (`Reader.Runs.kept`).
-/
namespace ThreeAddress
open Text

namespace Cursor

/-- The cursor has moved over the characters that came next. -/
def MovesTo (c after : Cursor) : Prop :=
  ∃ run, c.rest = run ++ after.rest ∧
    after = ⟨c.source, c.position + byteLength run, after.rest⟩

theorem movesTo_past {c : Cursor} {x : Char} {rest : List Char} (h : c.rest = x :: rest) :
    c.MovesTo (c.past x rest) :=
  ⟨[x], h, rfl⟩

theorem movesTo_takeWhile (c : Cursor) (p : Char → Bool) : c.MovesTo (c.takeWhile p).2 :=
  ⟨_, c.rest_takeWhile p, rfl⟩

theorem movesTo_of_acceptAll? {token : List Char} {c after : Cursor}
    (h : c.acceptAll? token = some after) : c.MovesTo after := by
  induction token generalizing c with
  | nil =>
    cases h
    exact ⟨[], rfl, rfl⟩
  | cons x token ih =>
    obtain ⟨middle, hx, htoken⟩ := Option.bind_eq_some_iff.mp h
    have hrest := rest_of_accept? hx
    rw [accept?_cons hrest] at hx
    obtain ⟨run, hrun, hafter⟩ := ih htoken
    refine ⟨x :: run, by rw [hrest, hrun, List.cons_append], ?_⟩
    rw [hafter, ← Option.some.inj hx, byteLength_cons, ← Nat.add_assoc]
    rfl

/-- The cursor stands between two characters of the text. -/
def StandsIn (c : Cursor) (text : List Char) : Prop :=
  ∃ consumed, text = consumed ++ c.rest ∧ c = ⟨text, byteLength consumed, c.rest⟩

theorem standsIn_start (text : List Char) : (start text).StandsIn text := ⟨[], rfl, rfl⟩

namespace StandsIn
variable {c : Cursor} {text : List Char}

/-- Moving on keeps a cursor in the text. -/
theorem move (h : c.StandsIn text) {after : Cursor} (hmoves : c.MovesTo after) :
    after.StandsIn text := by
  obtain ⟨consumed, htext, hc⟩ := h
  obtain ⟨run, hrun, hafter⟩ := hmoves
  refine ⟨consumed ++ run, by rw [htext, hrun, List.append_assoc], ?_⟩
  rw [hafter, hc, byteLength_append]

/-- The text that follows determines the place. -/
theorem eq_of_append (h : c.StandsIn text) {consumed : List Char}
    (htext : text = consumed ++ c.rest) :
    c = ⟨text, byteLength consumed, c.rest⟩ := by
  obtain ⟨consumed', htext', hc⟩ := h
  rwa [List.append_cancel_right (htext.symm.trans htext')]

end StandsIn
end Cursor

namespace Statement
open Grammar

/-- The place at which reading ends, or fails. -/
def Outcome.place {α : Type} : Outcome α → Cursor
  | .done _ s => s.cursor
  | .failed f _ => f.cursor

/-- The session in which reading ends, or fails. -/
def Outcome.session {α : Type} : Outcome α → Session
  | .done _ s => s
  | .failed _ s => s

theorem movesTo_of_nextOperator? {level : Precedence} {cursor after : Cursor} {operator : Operator}
    (h : nextOperator? level cursor = some (operator, after)) : cursor.MovesTo after := by
  obtain ⟨⟨sign, next⟩, hnext, h⟩ := Option.bind_eq_some_iff.mp h
  obtain ⟨_, _, h⟩ := Option.bind_eq_some_iff.mp h
  cases h
  have hrest := Cursor.rest_of_next? hnext
  rw [Cursor.next?_cons hrest] at hnext
  have hafter : cursor.past sign after.rest = after := (Prod.mk.inj (Option.some.inj hnext)).2
  exact hafter ▸ Cursor.movesTo_past hrest

/-! ## What readers do -/

namespace Reader

/-- The ways in which a reader comes from a session to its outcome. -/
inductive Runs : {α : Type} → Reader α → Session → Outcome α → Prop where
  | pure {α : Type} (a : α) (s : Session) : Runs (.pure a) s (.done a s)
  | peek? (s : Session) : Runs .peek? s (.done s.cursor.peek? s)
  | skip {s : Session} {c : Char} {cs : List Char} (comes : s.cursor.rest = c :: cs) :
      Runs .skip s (.done () { s with cursor := s.cursor.past c cs })
  | atEnd {s : Session} (nothing : s.cursor.rest = []) : Runs .skip s (.done () s)
  | word {α : Type} {p : Char → Bool} {value : List Char → Except Cause α} {stage : Stage}
      {s : Session} {a : α} (has : value (s.cursor.takeWhile p).1 = .ok a) :
      Runs (.word p value stage) s (.done a { s with cursor := (s.cursor.takeWhile p).2 })
  | noValue {α : Type} {p : Char → Bool} {value : List Char → Except Cause α} {stage : Stage}
      {s : Session} {cause : Cause} (wrong : value (s.cursor.takeWhile p).1 = .error cause) :
      Runs (.word p value stage) s (.failed ⟨cause, stage, s.cursor⟩ s)
  | expect {token : String} {stage : Stage} {s : Session} {cursor : Cursor}
      (comes : s.cursor.acceptAll? token.toList = some cursor) :
      Runs (.expect token stage) s (.done () { s with cursor })
  | missing {token : String} {stage : Stage} {s : Session} (other : ¬token.toList <+: s.cursor.rest) :
      Runs (.expect token stage) s (.failed ⟨.missing token, stage, s.cursor⟩ s)
  | refuse {α : Type} (cause : Cause) (stage : Stage) (s : Session) :
      Runs (.refuse cause stage : Reader α) s (.failed ⟨cause, stage, s.cursor⟩ s)
  | announce (phrase : Precedence) (s : Session) :
      Runs (.announce phrase) s (.done () (s.announce phrase))
  | first {α β : Type} {first : Reader α} {next : α → Reader β} {s t : Session} {f : Failure}
      (fails : Runs first s (.failed f t)) : Runs (.bind first next) s (.failed f t)
  | next {α β : Type} {first : Reader α} {next : α → Reader β} {s t : Session} {a : α}
      {o : Outcome β} (done : Runs first s (.done a t)) (runs : Runs (next a) t o) :
      Runs (.bind first next) s o
  | otherwise {α : Type} {opening : Opening} {inside otherwise : Reader α} {s : Session}
      {o : Outcome α} (other : s.cursor.peek? ≠ some opening.char) (runs : Runs otherwise s o) :
      Runs (.enclosed opening inside otherwise) s o
  | tooDeep {α : Type} {opening : Opening} {inside otherwise : Reader α} {s : Session}
      {cs : List Char} (comes : s.cursor.rest = opening.char :: cs)
      (full : nestingLimit ≤ s.depth) :
      Runs (.enclosed opening inside otherwise) s
        (.failed ⟨.tooDeep, .operand, s.cursor.past opening.char cs⟩ (s.behind opening cs))
  | inside {α : Type} {opening : Opening} {inside otherwise : Reader α} {s : Session}
      {cs : List Char} {o : Outcome α} (comes : s.cursor.rest = opening.char :: cs)
      (room : s.depth < nestingLimit) (runs : Runs inside (s.behind opening cs) o) :
      Runs (.enclosed opening inside otherwise) s o.leave
  | ended {level : Precedence} {operand : Reader Operand} {left : Operand} {s : Session}
      (other : nextOperator? level s.cursor = none) :
      Runs (.rounds level operand left) s (.done left s)
  | operand {level : Precedence} {operand : Reader Operand} {left : Operand} {s t : Session}
      {operator : Operator} {cursor : Cursor} {f : Failure}
      (sign : nextOperator? level s.cursor = some (operator, cursor))
      (fails : Runs operand { s with cursor } (.failed f t)) :
      Runs (.rounds level operand left) s (.failed f t)
  | round {level : Precedence} {operand : Reader Operand} {left right : Operand} {s t : Session}
      {operator : Operator} {cursor : Cursor} {o : Outcome Operand}
      (sign : nextOperator? level s.cursor = some (operator, cursor))
      (done : Runs operand { s with cursor } (.done right t))
      (runs : Runs (.rounds level operand (t.emitOperation operator left right).1)
        (t.emitOperation operator left right).2 o) :
      Runs (.rounds level operand left) s o

theorem runs {α : Type} (r : Reader α) (s : Session) : Runs r s (r.run s) := by
  induction r generalizing s with
  | pure a => exact .pure a s
  | peek? => exact .peek? s
  | refuse cause stage => exact .refuse cause stage s
  | announce phrase => exact .announce phrase s
  | skip =>
    cases hrest : s.cursor.rest with
    | nil =>
      rw [run_skip_nil hrest]
      exact .atEnd hrest
    | cons c cs =>
      rw [run_skip hrest]
      exact .skip hrest
  | word p value stage =>
    cases hrun : (word p value stage).run s with
    | done a t =>
      obtain ⟨hvalue, rfl⟩ := run_word_eq_done.mp hrun
      exact .word hvalue
    | failed f t =>
      obtain ⟨cause, hvalue, rfl, rfl⟩ := run_word_eq_failed.mp hrun
      exact .noValue hvalue
  | expect token stage =>
    cases hrun : (expect token stage).run s with
    | done a t =>
      obtain ⟨cursor, haccept, rfl⟩ := run_expect_eq_done.mp hrun
      exact .expect haccept
    | failed f t =>
      obtain ⟨hother, rfl, rfl⟩ := run_expect_eq_failed.mp hrun
      exact .missing hother
  | bind first next ihfirst ihnext =>
    have hfirst := ihfirst s
    show Runs (.bind first next) s ((first >>= next).run s)
    rw [run_bind]
    cases hrun : first.run s with
    | done a t =>
      rw [hrun] at hfirst
      exact .next hfirst (ihnext a t)
    | failed f t =>
      rw [hrun] at hfirst
      exact .first hfirst
  | enclosed opening inside otherwise ihinside ihotherwise =>
    obtain ⟨hpeek, hrun⟩ | ⟨cs, hrest, ⟨hfull, hrun⟩ | ⟨hlow, hrun⟩⟩ :=
      run_enclosed_cases opening inside otherwise s
    · rw [hrun]
      exact .otherwise hpeek (ihotherwise s)
    · rw [hrun]
      exact .tooDeep hrest hfull
    · rw [hrun]
      exact .inside hrest hlow (ihinside _)
  | rounds level operand left ih =>
    refine rounds_induction level operand
      (P := fun left s o => Runs (.rounds level operand left) s o) ?_ ?_ ?_ left s
    · intro left s hnext
      exact .ended hnext
    · intro left s operator cursor f t hnext hfailed
      exact .operand hnext (hfailed ▸ ih _)
    · intro left s operator cursor right t hnext hdone hround
      exact .round hnext (hdone ▸ ih _) hround

end Reader

/-! ## What every reader keeps -/

/-- Single acts of a reading keep the property. -/
structure Session.Kept (P : Session → Prop) : Prop where
  move : ∀ {s : Session} {cursor : Cursor}, P s → s.cursor.MovesTo cursor → P { s with cursor }
  level : ∀ {s : Session} (depth : Nat), P s → P { s with depth }
  announce : ∀ {s : Session} (phrase : Precedence), P s → P (s.announce phrase)
  emit : ∀ {s : Session} (op : BinaryOperator) (left right : Operand), P s →
    P (s.emitOperation op.operator left right).2

namespace Reader
variable {α : Type} {P : Session → Prop} {s : Session}

/-- What single acts keep is kept by every reader, also where it fails. -/
theorem Runs.kept {r : Reader α} {o : Outcome α} (h : Runs r s o) (hP : Session.Kept P)
    (hs : P s) : P o.session := by
  induction h with
  | pure | peek? | atEnd | noValue | missing | refuse | ended => exact hs
  | announce phrase s => exact hP.announce phrase hs
  | skip comes => exact hP.move hs (Cursor.movesTo_past comes)
  | @word _ p _ _ s _ has => exact hP.move hs (s.cursor.movesTo_takeWhile p)
  | expect comes => exact hP.move hs (Cursor.movesTo_of_acceptAll? comes)
  | first fails ih => exact ih hs
  | next done runs ihfirst ihnext => exact ihnext (ihfirst hs)
  | otherwise other runs ih => exact ih hs
  | tooDeep comes full => exact hP.level _ (hP.move hs (Cursor.movesTo_past comes))
  | @inside _ _ _ _ _ _ o comes room runs ih =>
    have hinside := ih (hP.level _ (hP.move hs (Cursor.movesTo_past comes)))
    cases o with
    | done a t => exact hP.level _ hinside
    | failed f t => exact hinside
  | operand sign fails ih => exact ih (hP.move hs (movesTo_of_nextOperator? sign))
  | round sign done runs ihoperand ihround =>
    obtain ⟨op, -, rfl, -⟩ := exists_sign_of_nextOperator? sign
    exact ihround (hP.emit op _ _ (ihoperand (hP.move hs (movesTo_of_nextOperator? sign))))

/-- A reader fails at the place that it has reached. -/
theorem Runs.place_eq {r : Reader α} {o : Outcome α} (h : Runs r s o) :
    o.place = o.session.cursor := by
  induction h with
  | first fails ih | otherwise other runs ih | operand sign fails ih => exact ih
  | next done runs ihdone ih | round sign done runs ihdone ih => exact ih
  | @inside _ _ _ _ _ _ o comes room runs ih =>
    cases o with
    | done a t => rfl
    | failed f t => exact ih
  | _ => rfl

end Reader

theorem kept_standsIn (text : List Char) : Session.Kept fun s => s.cursor.StandsIn text where
  move hs hmoves := hs.move hmoves
  level _ hs := hs
  announce _ hs := hs
  emit _ _ _ hs := hs

/-- The place at which a reader ends, or fails, stands in the text. -/
theorem Reader.standsIn_place {α : Type} {text : List Char} (r : Reader α) {s : Session}
    (hs : s.cursor.StandsIn text) : (r.run s).place.StandsIn text := by
  rw [(r.runs s).place_eq]
  exact (r.runs s).kept (kept_standsIn text) hs

end Statement
end ThreeAddress
