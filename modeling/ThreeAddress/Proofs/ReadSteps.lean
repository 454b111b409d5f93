import ThreeAddress.Proofs.Grammar
import ThreeAddress.Statement.Parse

/-!
# What single readers do

Each reader is described by when it succeeds, when it fails, and what it leaves unread. A word is
read exactly as it is written: a term that was read was written as a word that ends where the
reading stopped, and a word is read as the term that it stands for as far as the text after it does
not go on with it.
-/
namespace ThreeAddress
open Text Grammar

namespace Cursor

/-- The cursor after one more character. -/
def past (c : Cursor) (x : Char) (rest : List Char) : Cursor :=
  ⟨c.source, c.position + x.utf8Size, rest⟩

@[simp] theorem rest_past (c : Cursor) (x : Char) (rest : List Char) :
    (c.past x rest).rest = rest := rfl

theorem next?_cons {c : Cursor} {x : Char} {rest : List Char} (h : c.rest = x :: rest) :
    c.next? = some (x, c.past x rest) := by
  simp [next?, past, h]

theorem accept?_cons {c : Cursor} {x : Char} {rest : List Char} (h : c.rest = x :: rest) :
    c.accept? x = some (c.past x rest) := by
  simp [accept?, next?_cons h]

theorem accept?_eq_none {c : Cursor} {x : Char} (h : c.peek? ≠ some x) : c.accept? x = none := by
  cases haccept : c.accept? x with
  | none => rfl
  | some after => exact absurd (by rw [peek?, rest_of_accept? haccept]; rfl) h

/-- A token is moved over where the text goes on with it. -/
theorem acceptAll?_append {token rest : List Char} {c : Cursor} (h : c.rest = token ++ rest) :
    ∃ after, c.acceptAll? token = some after ∧ after.rest = rest := by
  induction token generalizing c with
  | nil => exact ⟨c, rfl, h⟩
  | cons x token ih =>
    have hnext := next?_cons (by rwa [List.cons_append] at h)
    obtain ⟨after, hafter, hrest⟩ := ih (c := c.past x (token ++ rest)) rfl
    refine ⟨after, ?_, hrest⟩
    simpa [acceptAll?, accept?, hnext] using hafter

theorem acceptAll?_eq_none_iff {c : Cursor} {token : List Char} :
    c.acceptAll? token = none ↔ ¬token <+: c.rest := by
  constructor
  · rintro hnone ⟨rest, hrest⟩
    obtain ⟨after, hafter, -⟩ := acceptAll?_append hrest.symm
    rw [hnone] at hafter
    cases hafter
  · intro hnot
    cases haccept : c.acceptAll? token with
    | none => rfl
    | some after => exact absurd ⟨after.rest, (rest_of_acceptAll? haccept).symm⟩ hnot

/-- A run of characters of a class is moved over as a whole. -/
theorem takeWhile_of_append {c : Cursor} {p : Char → Bool} {xs rest : List Char}
    (h : c.rest = xs ++ rest) (hx : ∀ x ∈ xs, p x) (hr : ∀ x ∈ rest.head?, p x = false) :
    (c.takeWhile p).1 = xs ∧ (c.takeWhile p).2.rest = rest := by
  unfold takeWhile
  rw [h]
  exact ⟨takeWhile_append_stop hx hr, dropWhile_append_stop hx hr⟩

/-- A run of characters of a class ends where the class ends. -/
theorem head?_rest_takeWhile (c : Cursor) (p : Char → Bool) :
    ∀ x ∈ (c.takeWhile p).2.rest.head?, p x = false :=
  head?_dropWhile c.rest

end Cursor

namespace Statement

/-! ## Signs -/

theorem exists_sign_of_nextOperator? {level : Precedence} {cursor after : Cursor} {o : Operator}
    (h : nextOperator? level cursor = some (o, after)) :
    ∃ op : BinaryOperator, op.level = level ∧ op.operator = o ∧
      cursor.rest = op.sign :: after.rest := by
  obtain ⟨⟨sign, next⟩, hnext, h⟩ := Option.bind_eq_some_iff.mp h
  obtain ⟨o', hsign, h⟩ := Option.bind_eq_some_iff.mp h
  cases h
  obtain ⟨op, hlevel, rfl, hop⟩ := Precedence.operator?_eq_some_iff.mp hsign
  exact ⟨op, hlevel, hop, Cursor.rest_of_next? hnext⟩

theorem nextOperator?_sign {op : BinaryOperator} {level : Precedence} (h : op.level = level)
    {cursor : Cursor} {rest : List Char} (hrest : cursor.rest = op.sign :: rest) :
    nextOperator? level cursor = some (op.operator, cursor.past op.sign rest) := by
  have hsign := Precedence.operator?_eq_some_iff.mpr ⟨op, h, rfl, rfl⟩
  simp [nextOperator?, Cursor.next?_cons hrest, hsign]

/-- A chain is read to its end. -/
theorem nextOperator?_eq_none_iff {level : Precedence} {cursor : Cursor} :
    nextOperator? level cursor = none ↔ (Tail.done : Tail level).Ends cursor.rest := by
  rw [Tail.Ends]
  constructor
  · intro h op hlevel hhead
    obtain ⟨rest, hrest⟩ := List.head?_eq_some_iff.mp hhead
    rw [nextOperator?_sign hlevel hrest] at h
    cases h
  · intro h
    cases hnext : nextOperator? level cursor with
    | none => rfl
    | some found =>
      obtain ⟨operator, after⟩ := found
      obtain ⟨op, hlevel, -, hrest⟩ := exists_sign_of_nextOperator? hnext
      exact absurd (by rw [hrest]; rfl) (h op hlevel)

/-! ## Single steps -/

namespace Reading
variable {α β : Type} {first : Reading α} {next : α → Reading β} {s u : Session}

/-- A sequence of two readings succeeds when both do, one after the other. -/
theorem run_bind_eq_done {b : β} : (first >>= next).run s = .done b u ↔
    ∃ a t, first.run s = .done a t ∧ (next a).run t = .done b u := by
  rw [run_bind]
  cases first.run s with
  | done a t => simp [and_assoc]
  | failed f t => simp

/-- A sequence of two readings fails when the first does, or when the second does after it. -/
theorem run_bind_eq_failed {f : Failure} : (first >>= next).run s = .failed f u ↔
    first.run s = .failed f u ∨
      ∃ a t, first.run s = .done a t ∧ (next a).run t = .failed f u := by
  rw [run_bind]
  cases first.run s with
  | done a t => simp [and_assoc]
  | failed g t => simp

end Reading

/-- The session behind a bracket or sign, one level deeper. -/
def Session.behind (s : Session) (opening : Opening) (rest : List Char) : Session :=
  { s with cursor := s.cursor.past opening.char rest, depth := s.depth + 1 }

@[simp] theorem Session.rest_behind (s : Session) (opening : Opening) (rest : List Char) :
    (s.behind opening rest).cursor.rest = rest := rfl

@[simp] theorem Session.depth_behind (s : Session) (opening : Opening) (rest : List Char) :
    (s.behind opening rest).depth = s.depth + 1 := rfl

/-- Comes back one level, if reading has not failed. -/
def Outcome.leave {α : Type} : Outcome α → Outcome α
  | .done a t => .done a { t with depth := t.depth - 1 }
  | .failed f t => .failed f t

namespace Reader
variable {α β : Type} {s t u : Session} {f : Failure}

theorem run_bind_eq_done {first : Reader α} {next : α → Reader β} {b : β} :
    (first >>= next).run s = .done b u ↔
      ∃ a t, first.run s = .done a t ∧ (next a).run t = .done b u :=
  Reading.run_bind_eq_done

theorem run_bind_eq_failed {first : Reader α} {next : α → Reader β} :
    (first >>= next).run s = .failed f u ↔
      first.run s = .failed f u ∨
        ∃ a t, first.run s = .done a t ∧ (next a).run t = .failed f u :=
  Reading.run_bind_eq_failed

@[simp] theorem run_peek?_bind (next : Option Char → Reader β) (s : Session) :
    (peek? >>= next).run s = (next s.cursor.peek?).run s := rfl

/-- Moving over a character leaves the text after it. -/
theorem run_skip {c : Char} {cs : List Char} (h : s.cursor.rest = c :: cs) :
    skip.run s = .done () { s with cursor := s.cursor.past c cs } := by
  simp [run, reading_skip, Reading.skip, Cursor.next?_cons h]

theorem run_skip_nil (h : s.cursor.rest = []) : skip.run s = .done () s := by
  simp [run, reading_skip, Reading.skip, Cursor.next?, h]

theorem run_skip_bind {next : Unit → Reader β} {c : Char} {cs : List Char}
    (h : s.cursor.rest = c :: cs) :
    (skip >>= next).run s = (next ()).run { s with cursor := s.cursor.past c cs } := by
  rw [run_bind, run_skip h]

theorem run_expect_eq_done {token : String} {stage : Stage} {x : Unit} :
    (expect token stage).run s = .done x t ↔
      ∃ cursor, s.cursor.acceptAll? token.toList = some cursor ∧ t = { s with cursor } := by
  simp only [run, reading_expect, Reading.expect]
  cases s.cursor.acceptAll? token.toList with
  | none => simp
  | some cursor => simp [eq_comm]

/-- A token is refused where the text does not start with it. -/
theorem run_expect_eq_failed {token : String} {stage : Stage} :
    (expect token stage).run s = .failed f t ↔
      ¬token.toList <+: s.cursor.rest ∧ f = ⟨.missing token, stage, s.cursor⟩ ∧ t = s := by
  rw [← Cursor.acceptAll?_eq_none_iff]
  simp only [run, reading_expect, Reading.expect]
  cases s.cursor.acceptAll? token.toList with
  | none => simp [eq_comm]
  | some cursor => simp

section
variable {p : Char → Bool} {value : List Char → Except Cause α} {stage : Stage}

theorem run_word_eq_done {a : α} : (word p value stage).run s = .done a t ↔
    value (s.cursor.takeWhile p).1 = .ok a ∧
      t = { s with cursor := (s.cursor.takeWhile p).2 } := by
  simp only [run, reading_word, Reading.word]
  cases value (s.cursor.takeWhile p).1 with
  | ok b => simp [eq_comm]
  | error cause => simp

theorem run_word_eq_failed : (word p value stage).run s = .failed f t ↔
    ∃ cause, value (s.cursor.takeWhile p).1 = .error cause ∧ f = ⟨cause, stage, s.cursor⟩ ∧
      t = s := by
  simp only [run, reading_word, Reading.word]
  cases value (s.cursor.takeWhile p).1 with
  | ok b => simp
  | error cause => simp [eq_comm]

end

section
variable {opening : Opening} {inside otherwise : Reader α} {cs : List Char}

theorem run_enclosed_of_ne (h : s.cursor.peek? ≠ some opening.char) :
    (enclosed opening inside otherwise).run s = otherwise.run s := by
  simp only [run, reading_enclosed, Reading.enclosed, Cursor.accept?_eq_none h]

/-- A bracket or sign opens a level where there is room for it. -/
theorem run_enclosed_of_lt (hrest : s.cursor.rest = opening.char :: cs)
    (hlow : s.depth < nestingLimit) :
    (enclosed opening inside otherwise).run s = (inside.run (s.behind opening cs)).leave := by
  simp only [run, reading_enclosed, Reading.enclosed, Cursor.accept?_cons hrest]
  rw [if_neg (by omega)]
  rfl

theorem run_enclosed_of_le (hrest : s.cursor.rest = opening.char :: cs)
    (hfull : nestingLimit ≤ s.depth) :
    (enclosed opening inside otherwise).run s =
      .failed ⟨.tooDeep, .operand, s.cursor.past opening.char cs⟩ (s.behind opening cs) := by
  simp only [run, reading_enclosed, Reading.enclosed, Cursor.accept?_cons hrest]
  rw [if_pos (by omega)]
  rfl

/-- Either the opening does not come next, or it is one level too many, or there is room for it. -/
theorem run_enclosed_cases (opening : Opening) (inside otherwise : Reader α) (s : Session) :
    (s.cursor.peek? ≠ some opening.char ∧
      (enclosed opening inside otherwise).run s = otherwise.run s) ∨
    ∃ cs, s.cursor.rest = opening.char :: cs ∧
      (nestingLimit ≤ s.depth ∧ (enclosed opening inside otherwise).run s =
          .failed ⟨.tooDeep, .operand, s.cursor.past opening.char cs⟩ (s.behind opening cs) ∨
        s.depth < nestingLimit ∧ (enclosed opening inside otherwise).run s =
          (inside.run (s.behind opening cs)).leave) := by
  by_cases hpeek : s.cursor.peek? = some opening.char
  · obtain ⟨cs, hrest⟩ := List.head?_eq_some_iff.mp hpeek
    refine .inr ⟨cs, hrest, ?_⟩
    obtain hlow | hfull := Nat.lt_or_ge s.depth nestingLimit
    · exact .inr ⟨hlow, run_enclosed_of_lt hrest hlow⟩
    · exact .inl ⟨hfull, run_enclosed_of_le hrest hfull⟩
  · exact .inl ⟨hpeek, run_enclosed_of_ne hpeek⟩

theorem leave_eq_done {o : Outcome α} {a : α} :
    o.leave = .done a t ↔ ∃ u, o = .done a u ∧ t = { u with depth := u.depth - 1 } := by
  cases o with
  | done b u => simp [Outcome.leave, and_assoc, eq_comm]
  | failed g u => simp [Outcome.leave]

theorem leave_eq_failed {o : Outcome α} : o.leave = .failed f t ↔ o = .failed f t := by
  cases o <;> simp [Outcome.leave]

theorem run_enclosed_eq_done (hrest : s.cursor.rest = opening.char :: cs) {a : α} :
    (enclosed opening inside otherwise).run s = .done a t ↔ s.depth < nestingLimit ∧
      ∃ u, inside.run (s.behind opening cs) = .done a u ∧
        t = { u with depth := u.depth - 1 } := by
  by_cases hlow : s.depth < nestingLimit
  · rw [run_enclosed_of_lt hrest hlow, leave_eq_done]
    simp [hlow]
  · rw [run_enclosed_of_le hrest (by omega)]
    simp [hlow]

end

section
variable {level : Precedence} {operand : Reader Operand} {operator : Operator} {cursor : Cursor}

theorem run_rounds_of_none (left : Operand) (h : nextOperator? level s.cursor = none) :
    (rounds level operand left).run s = .done left s := by
  show chainFrom level operand.reading left s = _
  rw [chainFrom]
  split
  · rfl
  · rename_i hsome
    rw [h] at hsome
    cases hsome

/-- A round that succeeds is followed by the next one. -/
theorem run_rounds_of_done {right : Operand} (left : Operand)
    (h : nextOperator? level s.cursor = some (operator, cursor))
    (hright : operand.run { s with cursor } = .done right t) :
    (rounds level operand left).run s =
      (rounds level operand (t.emitOperation operator left right).1).run
        (t.emitOperation operator left right).2 := by
  show chainFrom level operand.reading left s = _
  rw [chainFrom]
  split
  · rename_i hnone
    rw [h] at hnone
    cases hnone
  · rename_i operator' cursor' hsome
    rw [h] at hsome
    cases hsome
    split
    · rename_i hfailed
      cases hright.symm.trans hfailed
    · rename_i right' t' hdone
      cases hright.symm.trans hdone
      rfl

theorem run_rounds_of_failed (left : Operand)
    (h : nextOperator? level s.cursor = some (operator, cursor))
    (hright : operand.run { s with cursor } = .failed f t) :
    (rounds level operand left).run s = .failed f t := by
  show chainFrom level operand.reading left s = _
  rw [chainFrom]
  split
  · rename_i hnone
    rw [h] at hnone
    cases hnone
  · rename_i operator' cursor' hsome
    rw [h] at hsome
    cases hsome
    split
    · rename_i hfailed
      cases hright.symm.trans hfailed
      rfl
    · rename_i hdone
      cases hright.symm.trans hdone

/-- What holds of the outcome of all rounds: it holds where no operator follows and where an operand
fails, and each round passes it on to the next. -/
theorem rounds_induction (level : Precedence) (operand : Reader Operand)
    {P : Operand → Session → Outcome Operand → Prop}
    (ends : ∀ left s, nextOperator? level s.cursor = none → P left s (.done left s))
    (fails : ∀ left s operator cursor f t, nextOperator? level s.cursor = some (operator, cursor) →
      operand.run { s with cursor } = .failed f t → P left s (.failed f t))
    (round : ∀ left s operator cursor right t,
      nextOperator? level s.cursor = some (operator, cursor) →
      operand.run { s with cursor } = .done right t →
      P (t.emitOperation operator left right).1 (t.emitOperation operator left right).2
        ((rounds level operand (t.emitOperation operator left right).1).run
          (t.emitOperation operator left right).2) →
      P left s ((rounds level operand (t.emitOperation operator left right).1).run
          (t.emitOperation operator left right).2))
    (left : Operand) (s : Session) : P left s ((rounds level operand left).run s) := by
  show P left s (chainFrom level operand.reading left s)
  fun_induction chainFrom level operand.reading left s with
  | case1 left s hnext => exact ends left s hnext
  | case2 left s operator cursor hnext _ f t hfailed =>
    exact fails left s operator cursor f t hnext hfailed
  | case3 left s operator cursor hnext _ right t hdone _ emitted ih =>
    exact round left s operator cursor right t hnext hdone ih

end

end Reader

/-! ## Words -/

theorem run_name (stage : Stage) (s : Session) : (name stage).run s =
    .done (.identifier (String.ofList (s.cursor.takeWhile isNamePart).1))
      { s with cursor := (s.cursor.takeWhile isNamePart).2 } := rfl

theorem numeralOperand_eq_ok {digits : List Char} {o : Operand} :
    numeralOperand digits = .ok o ↔
      ∃ value, Binary64.ofNumeral? digits = some value ∧ o = .number value := by
  unfold numeralOperand
  cases Binary64.ofNumeral? digits with
  | none => simp
  | some value => simp [eq_comm]

theorem run_numeral_eq_done {stage : Stage} {s t : Session} {o : Operand} :
    (numeral stage).run s = .done o t ↔
      ∃ value, Binary64.ofNumeral? (s.cursor.takeWhile isNumeralPart).1 = some value ∧
        o = .number value ∧ t = { s with cursor := (s.cursor.takeWhile isNumeralPart).2 } := by
  rw [numeral, Reader.run_word_eq_done, numeralOperand_eq_ok]
  constructor
  · rintro ⟨⟨value, hvalue, ho⟩, ht⟩
    exact ⟨value, hvalue, ho, ht⟩
  · rintro ⟨value, hvalue, ho, ht⟩
    exact ⟨⟨value, hvalue, ho⟩, ht⟩

theorem exists_of_quoted {stage : Stage} {s t : Session} {o : Operand}
    (h : (quoted stage).run s = .done o t) :
    ∃ c, isQuotable c ∧ s.cursor.rest = c :: '\'' :: t.cursor.rest ∧ o = .character c ∧
      t = { s with cursor := t.cursor } := by
  unfold quoted at h
  rw [Reader.run_peek?_bind, Cursor.peek?] at h
  cases hrest : s.cursor.rest with
  | nil =>
    rw [hrest] at h
    cases h
  | cons c rest =>
    rw [hrest] at h
    dsimp only [List.head?_cons] at h
    split at h
    · rename_i hc
      rw [Reader.run_skip_bind hrest, Reader.run_peek?_bind] at h
      split at h
      · rename_i hd
        obtain ⟨cs, rfl⟩ := List.head?_eq_some_iff.mp hd
        rw [Reader.run_skip_bind rfl] at h
        cases h
        exact ⟨c, hc, rfl, rfl, rfl⟩
      · cases h
    · cases h

theorem run_quoted (stage : Stage) {s : Session} {c : Char} {cs : List Char} (hc : isQuotable c)
    (hrest : s.cursor.rest = c :: '\'' :: cs) :
    ∃ cursor : Cursor, cursor.rest = cs ∧
      (quoted stage).run s = .done (.character c) { s with cursor } := by
  unfold quoted
  rw [Reader.run_peek?_bind, Cursor.peek?, hrest]
  dsimp only [List.head?_cons]
  rw [if_pos hc, Reader.run_skip_bind hrest, Reader.run_peek?_bind]
  have hquote : (s.cursor.past c ('\'' :: cs)).peek? = some '\'' := rfl
  rw [if_pos hquote, Reader.run_skip_bind rfl]
  exact ⟨_, rfl, rfl⟩

/-- A term that is read was written as a word, which ends at the place reached, and nothing but the
place changes. -/
theorem exists_word_of_term {stage : Stage} {s t : Session} {o : Operand}
    (h : (term stage).run s = .done o t) :
    ∃ w : Word, s.cursor.rest = w.text ++ t.cursor.rest ∧ w.Ends t.cursor.rest ∧
      o = w.term.operand ∧ t = { s with cursor := t.cursor } := by
  unfold term at h
  rw [Reader.run_peek?_bind, Cursor.peek?] at h
  cases hrest : s.cursor.rest with
  | nil =>
    rw [hrest] at h
    cases h
  | cons c cs =>
    rw [hrest] at h
    dsimp only [List.head?_cons] at h
    split at h
    · rename_i hname
      rw [run_name] at h
      cases h
      have hpart : isNamePart c := isNamePart_of_isAlphabetic hname
      have hothers : ∀ d ∈ cs.takeWhile isNamePart, isAlphanumeric d ∨ d = '_' := by
        intro d hd
        simpa [isNamePart] using List.mem_takeWhile_imp hd
      refine ⟨.name c (cs.takeWhile isNamePart) hname hothers, ?_, ?_, ?_, rfl⟩
      · simp [Word.text, Cursor.takeWhile, hrest, hpart, List.takeWhile_append_dropWhile]
      · exact s.cursor.head?_rest_takeWhile isNamePart
      · simp [Word.term, Term.operand, Cursor.takeWhile, hrest, hpart]
    · rename_i hname
      split at h
      · obtain ⟨value, hvalue, rfl, rfl⟩ := run_numeral_eq_done.mp h
        have hsome := Option.isSome_of_eq_some hvalue
        refine ⟨.numeral _ (isSome_ofNumeral?_iff.mp hsome), ?_, ?_, ?_, rfl⟩
        · rw [← hrest]
          exact s.cursor.rest_takeWhile isNumeralPart
        · exact s.cursor.head?_rest_takeWhile isNumeralPart
        · simp [Word.term, Term.operand, hvalue]
      · split at h
        · rename_i hquote
          subst hquote
          rw [Reader.run_skip_bind hrest] at h
          obtain ⟨c, hc, hcs, rfl, ht⟩ := exists_of_quoted h
          refine ⟨.quoted c hc, ?_, trivial, rfl, ?_⟩
          · simpa [Word.text] using hcs
          · rw [ht]
        · cases h

/-- A word is read as the term that it stands for. -/
theorem run_term (stage : Stage) {s : Session} {rest : List Char} (w : Word)
    (hrest : s.cursor.rest = w.text ++ rest) (hends : w.Ends rest) :
    ∃ cursor : Cursor, cursor.rest = rest ∧
      (term stage).run s = .done w.term.operand { s with cursor } := by
  obtain ⟨c, cs, htext, hstart⟩ := w.exists_text_eq_cons
  have hhead : s.cursor.peek? = some c := by rw [Cursor.peek?, hrest, htext]; rfl
  unfold term
  rw [Reader.run_peek?_bind, hhead]
  dsimp only
  cases w with
  | name first others hs hg =>
    obtain ⟨hrun, hleft⟩ := Cursor.takeWhile_of_append hrest (Word.isNamePart_of_mem_name hs hg)
      hends
    refine ⟨_, hleft, ?_⟩
    rw [if_pos (show isNameStart c from hstart), run_name, hrun]
    rfl
  | numeral digits hn =>
    obtain ⟨hrun, hleft⟩ := Cursor.takeWhile_of_append hrest (isNumeralPart_of_mem hn) hends
    refine ⟨_, hleft, ?_⟩
    rw [if_neg (by simp [isNameStart, isAlphabetic_of_isNumeralPart hstart]),
      if_pos (show isNumeralPart c from hstart)]
    exact run_numeral_eq_done.mpr ⟨_, hrun ▸ (Option.some_get _).symm, rfl, rfl⟩
  | quoted q hq =>
    obtain rfl : c = '\'' := hstart
    rw [if_neg (by decide), if_neg (by decide), if_pos rfl, Reader.run_skip_bind hrest]
    exact run_quoted stage (s := { s with cursor := s.cursor.past '\'' _ }) hq rfl

/-! ## Atoms -/

section
variable {nested : Reader Operand} {s : Session} {cs : List Char}

theorem run_atomOver_of_sign (hrest : s.cursor.rest = '-' :: cs) : (atomOver nested).run s =
    (Reader.enclosed .sign (signed nested) (term .operand)).run s := by
  refine Reader.run_enclosed_of_ne ?_
  simp [Cursor.peek?, hrest, Opening.char]

/-- What starts with neither a bracket nor a sign is read as a term. -/
theorem run_atomOver_of_plain (h : ∀ c ∈ s.cursor.peek?, c ≠ '(' ∧ c ≠ '-') :
    (atomOver nested).run s = (term .operand).run s := by
  have hbracket : s.cursor.peek? ≠ some Opening.bracket.char := fun hc => (h _ hc).1 rfl
  have hsign : s.cursor.peek? ≠ some Opening.sign.char := fun hc => (h _ hc).2 rfl
  rw [atomOver, Reader.run_enclosed_of_ne hbracket, Reader.run_enclosed_of_ne hsign]

/-- How a text may start where an atom should stand. -/
theorem starts_cases (s : Session) : (∃ cs, s.cursor.rest = '(' :: cs) ∨
    (∃ cs, s.cursor.rest = '-' :: cs) ∨ ∀ c ∈ s.cursor.peek?, c ≠ '(' ∧ c ≠ '-' := by
  cases hrest : s.cursor.rest with
  | nil => simp [Cursor.peek?, hrest]
  | cons c cs =>
    by_cases hbracket : c = '('
    · exact .inl ⟨cs, by rw [hbracket]⟩
    · by_cases hsign : c = '-'
      · exact .inr (.inl ⟨cs, by rw [hsign]⟩)
      · simp [Cursor.peek?, hrest, hbracket, hsign]

end

/-! ## Statements -/

theorem run_statement_eq_done {s u : Session} {x : Unit} : statement.run s = .done x u ↔
    ∃ target value t, assignment.run s = .done (target, value) t ∧
      u = t.emitAssignment target value := by
  constructor
  · intro h
    obtain ⟨⟨target, value⟩, t, hrun, hclose⟩ := Reading.run_bind_eq_done.mp h
    cases hclose
    exact ⟨target, value, t, hrun, rfl⟩
  · rintro ⟨target, value, t, hrun, rfl⟩
    exact Reading.run_bind_eq_done.mpr ⟨(target, value), t, hrun, rfl⟩

theorem run_statement_eq_failed {s u : Session} {f : Failure} :
    statement.run s = .failed f u ↔ assignment.run s = .failed f u := by
  constructor
  · intro h
    obtain hrun | ⟨pair, t, -, hclose⟩ := Reading.run_bind_eq_failed.mp h
    · exact hrun
    · cases hclose
  · exact fun h => Reading.run_bind_eq_failed.mpr (.inl h)

end Statement
end ThreeAddress
