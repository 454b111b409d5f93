import ThreeAddress.Proofs.ReadSteps

/-!
# Reading follows the grammar

A reader that succeeds has moved over the text of a phrase up to where it ends, has come back to the
depth at which it started, and has emitted the triads of the phrase's abstract syntax. In turn every
phrase whose nesting fits is read, as far as the text after it does not go on with it. Both are
shown for chains over any reader of operands and then, by induction on the room for nesting, for
atoms.
-/
namespace ThreeAddress.Statement
open Text Grammar

/-! ## What has been emitted -/

/-- The session has emitted exactly these triads, and both counters stand at their number. -/
structure Session.Holds (s : Session) (triads : List Triad) : Prop where
  listing : s.listing.triads.toList = triads
  numbering : s.numbering = ⟨triads.length, triads.length⟩

/-- Moving on in the text or in depth emits nothing. -/
theorem Session.Holds.of_eq {s t : Session} {triads : List Triad} (h : s.Holds triads)
    (hlisting : t.listing = s.listing) (hnumbering : t.numbering = s.numbering) :
    t.Holds triads :=
  ⟨by rw [hlisting, h.listing], by rw [hnumbering, h.numbering]⟩

/-- The session has emitted an expression after other triads, and `o` stands for its value. -/
structure Session.Emitted (s : Session) (before : List Triad) (e : Expr) (o : Operand) : Prop where
  operand : o = e.operand before.length
  holds : s.Holds (before ++ e.triads before.length)

/-- The triad of an operation completes those of its operands. -/
theorem Session.Emitted.operation {s t : Session} {before : List Triad} {l r : Expr}
    {left right : Operand} (op : BinaryOperator) (hl : s.Emitted before l left)
    (hr : t.Emitted (before ++ l.triads before.length) r right) :
    (t.emitOperation op.operator left right).2.Emitted before (.operation op l r)
      (t.emitOperation op.operator left right).1 := by
  obtain ⟨hleft, -⟩ := hl
  obtain ⟨hright, hlisting, hnumbering⟩ := hr
  simp only [List.length_append, Expr.length_triads] at hright hlisting hnumbering
  refine ⟨?_, ?_, ?_⟩
  · simp [Session.emitOperation, Numbering.nextTemporary, Expr.operand, hnumbering]
  · simp [Session.emitOperation, Numbering.nextTemporary, Numbering.nextTriad, Listing.push,
      Expr.triads, Expr.triadOf, hlisting, hnumbering, hleft, hright]
  · simp [Session.emitOperation, Numbering.nextTemporary, Numbering.nextTriad, hnumbering,
      Expr.operations, Nat.add_assoc]

/-! ## Success follows the grammar -/

/-- What reading a phrase does: it moves over the text of the phrase up to where it ends, comes back
to the depth at which it started, and emits the triads of the abstract syntax. -/
structure Reads {k : Kind} (s : Session) (p : Phrase k) (o : Operand) (t : Session) : Prop where
  rest : s.cursor.rest = p.text ++ t.cursor.rest
  ends : p.Ends t.cursor.rest
  depth : t.depth = s.depth
  nesting : s.depth + p.nesting ≤ nestingLimit
  emitted : ∀ before, s.Holds before → t.Emitted before p.expr o

/-- What reading the rest of a chain does after the operand `left`. -/
structure ReadsTail {level : Precedence} (s : Session) (q : Tail level) (left o : Operand)
    (t : Session) : Prop where
  rest : s.cursor.rest = q.text ++ t.cursor.rest
  ends : q.Ends t.cursor.rest
  depth : t.depth = s.depth
  nesting : s.depth + q.nesting ≤ nestingLimit
  emitted : ∀ before e, s.Emitted before e left → t.Emitted before (q.expr e) o

/-- Whenever the reader succeeds, it has read a phrase of the kind. -/
def Sound (reader : Reader Operand) (k : Kind) : Prop :=
  ∀ ⦃s t : Session⦄ ⦃o : Operand⦄, s.depth ≤ nestingLimit → reader.run s = .done o t →
    ∃ p : Phrase k, Reads s p o t

theorem Sound.rounds {level : Precedence} {operand : Reader Operand}
    (hoperand : Sound operand (operandKind level)) {left o : Operand} {s t : Session}
    (hdepth : s.depth ≤ nestingLimit) (h : (Reader.rounds level operand left).run s = .done o t) :
    ∃ q : Tail level, ReadsTail s q left o t := by
  revert hdepth h
  refine Reader.rounds_induction level operand (P := fun left s result =>
    s.depth ≤ nestingLimit → result = .done o t → ∃ q : Tail level, ReadsTail s q left o t)
    ?_ ?_ ?_ left s
  · intro left s hnone hdepth h
    cases h
    exact ⟨.done, rfl, nextOperator?_eq_none_iff.mp hnone, rfl, hdepth, fun _ _ hleft => hleft⟩
  · intro left s operator cursor f u hnext hfailed hdepth h
    cases h
  · intro left s operator cursor right u hnext hright ih hdepth h
    obtain ⟨op, hlevel, rfl, hsign⟩ := exists_sign_of_nextOperator? hnext
    obtain ⟨p, hp⟩ := hoperand (s := { s with cursor }) hdepth hright
    obtain ⟨q, hq⟩ := ih (by rw [Session.depth_emitOperation, hp.depth]; exact hdepth) h
    have hafter := hq.rest
    simp only [Session.cursor_emitOperation] at hafter
    refine ⟨.more op hlevel p q, ?_, ?_, ?_, ?_, ?_⟩
    · have hrest := hp.rest
      simp only at hrest
      rw [hsign, hrest, hafter, Tail.text]
      simp
    · rw [Tail.Ends]
      exact ⟨hafter ▸ hp.ends, hq.ends⟩
    · rw [hq.depth, Session.depth_emitOperation, hp.depth]
    · have hpn := hp.nesting
      have hqn := hq.nesting
      rw [Session.depth_emitOperation, hp.depth] at hqn
      simp only [Tail.nesting] at *
      omega
    · intro before e hleft
      have hright := hp.emitted _ (hleft.holds.of_eq rfl rfl)
      exact hq.emitted before _ (hleft.operation op hright)

theorem Sound.chain (level : Precedence) {operand : Reader Operand}
    (hoperand : Sound operand (operandKind level)) :
    Sound (Statement.chain level operand) (.chain level) := by
  intro s t o hdepth h
  obtain ⟨_, s', hannounce, h⟩ := Reader.run_bind_eq_done.mp h
  cases hannounce
  obtain ⟨first, u, hfirst, h⟩ := Reader.run_bind_eq_done.mp h
  obtain ⟨p, hp⟩ := hoperand (by exact hdepth) hfirst
  have hdepth' : u.depth = s.depth := hp.depth
  obtain ⟨q, hq⟩ := hoperand.rounds (by rw [hdepth']; exact hdepth) h
  refine ⟨.chain p q, ?_, ?_, ?_, ?_, ?_⟩
  · have hrest : s.cursor.rest = p.text ++ u.cursor.rest := hp.rest
    rw [hrest, hq.rest, Phrase.text, List.append_assoc]
  · rw [Phrase.Ends]
    exact ⟨hq.rest ▸ hp.ends, hq.ends⟩
  · rw [hq.depth, hdepth']
  · have hpn : s.depth + p.nesting ≤ nestingLimit := hp.nesting
    have hqn := hq.nesting
    simp only [Phrase.nesting]
    omega
  · intro before hholds
    exact hq.emitted before _ (hp.emitted before (hholds.of_eq rfl rfl))

theorem Sound.sumOf {atom : Reader Operand} (h : Sound atom .atom) :
    Sound (Statement.sumOf atom) (.chain .sum) :=
  Sound.chain .sum (Sound.chain .product h)

theorem Sound.atomOver {nested : Reader Operand} (hnested : Sound nested .atom) :
    Sound (Statement.atomOver nested) .atom := by
  intro s t o hdepth h
  obtain ⟨cs, hrest⟩ | ⟨cs, hrest⟩ | hplain := starts_cases s
  · obtain ⟨hlow, u, hinside, rfl⟩ := (Reader.run_enclosed_eq_done hrest).mp h
    obtain ⟨inner, v, hinner, hinside⟩ := Reader.run_bind_eq_done.mp hinside
    obtain ⟨_, v', hexpect, hinside⟩ := Reader.run_bind_eq_done.mp hinside
    obtain ⟨cursor, haccept, rfl⟩ := Reader.run_expect_eq_done.mp hexpect
    cases hinside
    obtain ⟨p, hp⟩ := hnested.sumOf (by exact hlow) hinner
    refine ⟨.bracketed p, ?_, by rw [Phrase.Ends]; trivial, ?_, ?_, ?_⟩
    · have hinside : cs = p.text ++ v.cursor.rest := hp.rest
      have hclose := Cursor.rest_of_acceptAll? haccept
      simp [hrest, hinside, hclose, Phrase.text]
    · simp [hp.depth]
    · have hnesting := hp.nesting
      simp only [Phrase.nesting, Session.depth_behind] at hnesting ⊢
      omega
    · intro before hholds
      have hinside := hp.emitted before (hholds.of_eq rfl rfl)
      exact ⟨hinside.operand, hinside.holds.of_eq rfl rfl⟩
  · rw [run_atomOver_of_sign hrest] at h
    obtain ⟨hlow, u, hinside, rfl⟩ := (Reader.run_enclosed_eq_done hrest).mp h
    obtain ⟨inner, v, hinner, hinside⟩ := Reader.run_bind_eq_done.mp hinside
    cases hinside
    obtain ⟨p, hp⟩ := hnested (by exact hlow) hinner
    refine ⟨.signed p, ?_, ?_, ?_, ?_, ?_⟩
    · have hinside : cs = p.text ++ u.cursor.rest := hp.rest
      simp [hrest, hinside, Phrase.text]
    · rw [Phrase.Ends]
      exact hp.ends
    · simp [hp.depth]
    · have hnesting := hp.nesting
      simp only [Phrase.nesting, Session.depth_behind] at hnesting ⊢
      omega
    · intro before hholds
      have hinside := hp.emitted before (hholds.of_eq rfl rfl)
      exact ⟨by rw [hinside.operand]; rfl, hinside.holds.of_eq rfl rfl⟩
  · rw [run_atomOver_of_plain hplain] at h
    obtain ⟨w, hrest, hends, rfl, ht⟩ := exists_word_of_term h
    refine ⟨.word w, hrest, hends, by rw [ht], hdepth, fun before hholds => ?_⟩
    have hsame : t.Holds before := by rw [ht]; exact hholds.of_eq rfl rfl
    exact ⟨rfl, by simpa [Phrase.expr, Expr.triads] using hsame⟩

/-- Atoms are read according to the grammar, whatever room there is for nesting. -/
theorem sound_atom (room : Nat) : Sound (atom room) .atom := by
  induction room with
  | zero =>
    intro s t o hdepth h
    cases h
  | succ room ih => exact ih.atomOver

/-! ## The room for nesting never runs out -/

/-- Readers that come to the same outcome from every session of this depth. -/
def AgreeAt (depth : Nat) (r r' : Reader Operand) : Prop :=
  ∀ s : Session, s.depth = depth → r.run s = r'.run s

namespace AgreeAt
variable {depth : Nat} {r r' : Reader Operand}

/-- An operand that is read comes back to the depth at which it starts, so all rounds agree. -/
theorem rounds {level : Precedence} (hsound : Sound r (operandKind level))
    (hdepth : depth ≤ nestingLimit) (h : AgreeAt depth r r') (left : Operand) :
    AgreeAt depth (.rounds level r left) (.rounds level r' left) := by
  intro s
  refine Reader.rounds_induction level r (P := fun left s o =>
    s.depth = depth → o = (Reader.rounds level r' left).run s) ?_ ?_ ?_ left s
  · intro left s hnone _
    rw [Reader.run_rounds_of_none left hnone]
  · intro left s operator cursor f t hnext hfailed hs
    rw [h { s with cursor } hs] at hfailed
    rw [Reader.run_rounds_of_failed left hnext hfailed]
  · intro left s operator cursor right t hnext hdone ih hs
    obtain ⟨p, hp⟩ := hsound (s := { s with cursor }) (hs.trans_le hdepth) hdone
    rw [h { s with cursor } hs] at hdone
    rw [Reader.run_rounds_of_done left hnext hdone]
    exact ih (hp.depth.trans hs)

theorem chain {level : Precedence} (hsound : Sound r (operandKind level))
    (hdepth : depth ≤ nestingLimit) (h : AgreeAt depth r r') :
    AgreeAt depth (Statement.chain level r) (Statement.chain level r') := by
  intro s hs
  have hfirst := h (s.announce level) hs
  show (r >>= fun first => Reader.rounds level r first).run (s.announce level) =
    (r' >>= fun first => Reader.rounds level r' first).run (s.announce level)
  rw [Reader.run_bind, Reader.run_bind, ← hfirst]
  cases hrun : r.run (s.announce level) with
  | failed f t => rfl
  | done first t =>
    obtain ⟨p, hp⟩ := hsound (s := s.announce level) (hs.trans_le hdepth) hrun
    exact h.rounds hsound hdepth first t (hp.depth.trans hs)

theorem sumOf (hsound : Sound r .atom) (hdepth : depth ≤ nestingLimit) (h : AgreeAt depth r r') :
    AgreeAt depth (Statement.sumOf r) (Statement.sumOf r') :=
  (h.chain hsound hdepth).chain (Sound.chain .product hsound) hdepth

/-- A level beyond the limit is refused before it is read. -/
theorem atomOver (hsound : Sound r .atom)
    (h : depth < nestingLimit → AgreeAt (depth + 1) r r') :
    AgreeAt depth (Statement.atomOver r) (Statement.atomOver r') := by
  intro s hs
  obtain ⟨cs, hrest⟩ | ⟨cs, hrest⟩ | hplain := starts_cases s
  · obtain hlow | hfull := Nat.lt_or_ge s.depth nestingLimit
    · have hinner := (h (hs ▸ hlow)).sumOf hsound (hs ▸ hlow) (s.behind .bracket cs)
        (congrArg (· + 1) hs)
      unfold Statement.atomOver
      rw [Reader.run_enclosed_of_lt hrest hlow, Reader.run_enclosed_of_lt hrest hlow]
      unfold bracketed
      rw [Reader.run_bind, Reader.run_bind, hinner]
    · unfold Statement.atomOver
      rw [Reader.run_enclosed_of_le hrest hfull, Reader.run_enclosed_of_le hrest hfull]
  · rw [run_atomOver_of_sign hrest, run_atomOver_of_sign hrest]
    obtain hlow | hfull := Nat.lt_or_ge s.depth nestingLimit
    · have hinner := h (hs ▸ hlow) (s.behind .sign cs) (congrArg (· + 1) hs)
      rw [Reader.run_enclosed_of_lt hrest hlow, Reader.run_enclosed_of_lt hrest hlow]
      unfold signed
      rw [Reader.run_bind, Reader.run_bind, hinner]
    · rw [Reader.run_enclosed_of_le hrest hfull, Reader.run_enclosed_of_le hrest hfull]
  · rw [run_atomOver_of_plain hplain, run_atomOver_of_plain hplain]

end AgreeAt

/-- With room for all levels up to the limit and one more, the amount of room does not matter. -/
theorem agreeAt_atom {depth room room' : Nat} (hdepth : depth ≤ nestingLimit)
    (hroom : nestingLimit < depth + room) (hroom' : nestingLimit < depth + room') :
    AgreeAt depth (atom room) (atom room') := by
  induction room generalizing depth room' with
  | zero => omega
  | succ room ih =>
    cases room' with
    | zero => omega
    | succ room' =>
      refine AgreeAt.atomOver (sound_atom room) fun hlow => ih hlow ?_ ?_
      · omega
      · omega

/-- Any room beyond the limit gives the outcome of an expression, so that no room runs out. -/
theorem run_sumOf_atom_eq_run_expression {room : Nat} (hroom : nestingLimit < room) {s : Session}
    (hs : s.depth = 0) : (sumOf (atom room)).run s = expression.run s := by
  have hatoms : AgreeAt 0 (atom room) (atom (nestingLimit + 1)) :=
    agreeAt_atom (Nat.zero_le _) (by omega) (by omega)
  exact hatoms.sumOf (sound_atom room) (Nat.zero_le _) s hs

/-! ## The grammar is read completely -/

/-- The reader succeeds on every phrase of the kind whose nesting fits, and stops at its end. -/
def Complete (reader : Reader Operand) (k : Kind) (room : Nat) : Prop :=
  ∀ ⦃s : Session⦄ (p : Phrase k) ⦃rest : List Char⦄, s.cursor.rest = p.text ++ rest →
    p.Ends rest → s.depth + p.nesting ≤ nestingLimit → nestingLimit < s.depth + room →
    ∃ o t, reader.run s = .done o t ∧ t.cursor.rest = rest ∧ t.depth = s.depth

theorem Complete.rounds {level : Precedence} {operand : Reader Operand} {room : Nat}
    (hoperand : Complete operand (operandKind level) room) :
    ∀ (q : Tail level) {s : Session} (left : Operand) {rest : List Char},
      s.cursor.rest = q.text ++ rest → q.Ends rest → s.depth + q.nesting ≤ nestingLimit →
      nestingLimit < s.depth + room →
      ∃ o t, (Reader.rounds level operand left).run s = .done o t ∧ t.cursor.rest = rest ∧
        t.depth = s.depth
  | .done, s, left, rest, hrest, hends, _, _ => by
    have hrest : s.cursor.rest = rest := hrest
    have hnone := nextOperator?_eq_none_iff.mpr (hrest ▸ hends)
    exact ⟨left, s, Reader.run_rounds_of_none left hnone, hrest, rfl⟩
  | .more op known p q, s, left, rest, hrest, hends, hnesting, hroom => by
    rw [Tail.Ends] at hends
    have hrest : s.cursor.rest = op.sign :: (p.text ++ (q.text ++ rest)) := by
      rw [hrest, Tail.text, List.cons_append, List.append_assoc]
    have hpn : s.depth + p.nesting ≤ nestingLimit := by
      simp only [Tail.nesting] at hnesting; omega
    have hqn : s.depth + q.nesting ≤ nestingLimit := by
      simp only [Tail.nesting] at hnesting; omega
    obtain ⟨right, u, hright, hu, hdepth⟩ := hoperand p
      (s := { s with cursor := s.cursor.past op.sign _ }) rfl hends.1 hpn hroom
    have hdepth : u.depth = s.depth := hdepth
    have hstep := Reader.run_rounds_of_done left (nextOperator?_sign known hrest) hright
    obtain ⟨o, t, hrun, ht, hdepth'⟩ := Complete.rounds hoperand q
      (s := (u.emitOperation op.operator left right).2) _ hu hends.2
      (by rwa [Session.depth_emitOperation, hdepth]) (by rwa [Session.depth_emitOperation, hdepth])
    refine ⟨o, t, ?_, ht, ?_⟩
    · rw [hstep, hrun]
    · rw [hdepth', Session.depth_emitOperation, hdepth]

theorem Complete.chain (level : Precedence) {operand : Reader Operand} {room : Nat}
    (hoperand : Complete operand (operandKind level) room) :
    Complete (Statement.chain level operand) (.chain level) room := by
  intro s p rest hrest hends hnesting hroom
  cases p with | chain first q =>
  rw [Phrase.Ends] at hends
  simp only [Phrase.nesting] at hnesting
  rw [Phrase.text, List.append_assoc] at hrest
  obtain ⟨left, u, hfirst, hu, hdepth⟩ := hoperand first (s := s.announce level) hrest
    hends.1 (by rw [Session.depth_announce]; omega) hroom
  have hdepth : u.depth = s.depth := hdepth
  obtain ⟨o, t, hrun, ht, hdepth'⟩ := hoperand.rounds q left hu hends.2
    (by omega) (by omega)
  refine ⟨o, t, ?_, ht, hdepth'.trans hdepth⟩
  exact Reader.run_bind_eq_done.mpr ⟨(), s.announce level, rfl,
    Reader.run_bind_eq_done.mpr ⟨left, u, hfirst, hrun⟩⟩

theorem Complete.sumOf {atom : Reader Operand} {room : Nat} (h : Complete atom .atom room) :
    Complete (Statement.sumOf atom) (.chain .sum) room :=
  Complete.chain .sum (Complete.chain .product h)

theorem Complete.atomOver {nested : Reader Operand} {room : Nat}
    (hnested : Complete nested .atom room) :
    Complete (Statement.atomOver nested) .atom (room + 1) := by
  intro s p rest hrest hends hnesting hroom
  cases p with
  | word w =>
    obtain ⟨c, cs, htext, hstart⟩ := w.exists_text_eq_cons
    have hpeek : s.cursor.peek? = some c := by
      rw [Cursor.peek?, hrest, Phrase.text, htext]; rfl
    obtain ⟨cursor, hcursor, hrun⟩ := run_term .operand w hrest hends
    refine ⟨w.term.operand, { s with cursor }, ?_, hcursor, rfl⟩
    rw [run_atomOver_of_plain, hrun]
    intro d hd
    obtain rfl := Option.some.inj (hpeek.symm.trans hd)
    exact hstart.ne_bracket_and_ne_minus
  | bracketed inner =>
    have hrest : s.cursor.rest = '(' :: (inner.text ++ (')' :: rest)) := by
      simp [hrest, Phrase.text]
    simp only [Phrase.nesting] at hnesting
    obtain ⟨o, u, hinner, hu, hdepth⟩ := hnested.sumOf inner
      (s := s.behind .bracket (inner.text ++ (')' :: rest))) rfl
      (inner.ends_of_stops (stops_cons (c := ')') (by simp) _ rest))
      (by rw [Session.depth_behind]; omega) (by rw [Session.depth_behind]; omega)
    obtain ⟨after, haccept, hafter⟩ :=
      Cursor.acceptAll?_append (show u.cursor.rest = ")".toList ++ rest from hu)
    have hclose : (Reader.expect ")" .closingBracket).run u = .done () { u with cursor := after } :=
      Reader.run_expect_eq_done.mpr ⟨after, haccept, rfl⟩
    refine ⟨o, { u with cursor := after, depth := u.depth - 1 }, ?_, hafter, ?_⟩
    · refine (Reader.run_enclosed_eq_done hrest).mpr ⟨by omega, { u with cursor := after }, ?_, rfl⟩
      exact Reader.run_bind_eq_done.mpr ⟨o, u, hinner,
        Reader.run_bind_eq_done.mpr ⟨(), _, hclose, rfl⟩⟩
    · rw [Session.depth_behind] at hdepth
      simp [hdepth]
  | signed inner =>
    have hrest : s.cursor.rest = '-' :: (inner.text ++ rest) := by
      simp [hrest, Phrase.text]
    simp only [Phrase.nesting] at hnesting
    rw [Phrase.Ends] at hends
    obtain ⟨o, u, hinner, hu, hdepth⟩ := hnested inner (s := s.behind .sign (inner.text ++ rest)) rfl
      hends (by rw [Session.depth_behind]; omega) (by rw [Session.depth_behind]; omega)
    refine ⟨.negated o, { u with depth := u.depth - 1 }, ?_, hu, ?_⟩
    · rw [run_atomOver_of_sign hrest]
      refine (Reader.run_enclosed_eq_done hrest).mpr ⟨by omega, u, ?_, rfl⟩
      exact Reader.run_bind_eq_done.mpr ⟨o, u, hinner, rfl⟩
    · rw [Session.depth_behind] at hdepth
      simp [hdepth]

/-- Every atom whose nesting fits is read. -/
theorem complete_atom (room : Nat) : Complete (atom room) .atom room := by
  induction room with
  | zero =>
    intro s p rest _ _ hnesting hroom
    omega
  | succ room ih => exact ih.atomOver

/-! ## Whole statements -/

/-- The assignment closes the triads of its value. -/
theorem Session.Emitted.assignment {s : Session} {a : Assignment} {value : Operand}
    (h : s.Emitted [] a.value value) :
    (s.emitAssignment a.target.operand value).listing = a.listing := by
  obtain ⟨hvalue, hlisting, hnumbering⟩ := h
  simp only [List.nil_append, List.length_nil, Expr.length_triads] at hvalue hlisting hnumbering
  have htriads : s.listing.triads = (a.value.triads 0).toArray := by
    rw [← hlisting]
  simp [Session.emitAssignment, Numbering.nextTriad, Listing.push, Assignment.listing,
    Assignment.triads, Assignment.closing, htriads, hnumbering, hvalue]

theorem exists_sentence_of_statement {text : List Char} {t : Session}
    (h : statement.run { cursor := .start text } = .done () t) :
    ∃ d : Sentence, d.text = text ∧ d.nesting ≤ nestingLimit ∧
      t.listing = d.assignment.listing := by
  obtain ⟨target, value, t, hread, rfl⟩ := run_statement_eq_done.mp h
  obtain ⟨target, s, htarget, h⟩ := Reader.run_bind_eq_done.mp hread
  obtain ⟨w, hword, -, rfl, hs⟩ := exists_word_of_term htarget
  obtain ⟨_, s', hassign, h⟩ := Reader.run_bind_eq_done.mp h
  obtain ⟨cursor, haccept, rfl⟩ := Reader.run_expect_eq_done.mp hassign
  obtain ⟨value, u, hvalue, h⟩ := Reader.run_bind_eq_done.mp h
  obtain ⟨_, u', hending, h⟩ := Reader.run_bind_eq_done.mp h
  obtain ⟨cursor', haccept', rfl⟩ := Reader.run_expect_eq_done.mp hending
  rw [Reader.run_peek?_bind] at h
  split at h
  · rename_i hend
    cases h
    obtain ⟨p, hp⟩ := (sound_atom _).sumOf (by rw [hs]; exact Nat.zero_le _) hvalue
    refine ⟨⟨w, p⟩, ?_, ?_, ?_⟩
    · have hassign := Cursor.rest_of_acceptAll? haccept
      have hending := Cursor.rest_of_acceptAll? haccept'
      have hvalue : cursor.rest = p.text ++ u.cursor.rest := hp.rest
      have hend : cursor'.rest = [] := by simpa [Cursor.peek?] using hend
      have hword : text = w.text ++ s.cursor.rest := hword
      rw [hword, hassign, hvalue, hending, hend, Sentence.text, List.append_nil]
    · exact Nat.le_trans (Nat.le_add_left ..) hp.nesting
    · have hempty : s.Holds [] := by rw [hs]; exact ⟨rfl, rfl⟩
      have hvalue := hp.emitted [] (hempty.of_eq rfl rfl)
      exact Session.Emitted.assignment (a := ⟨w.term, p.expr⟩)
        ⟨hvalue.operand, hvalue.holds.of_eq rfl rfl⟩
  · cases h

theorem run_statement_of_sentence (d : Sentence) (hnesting : d.nesting ≤ nestingLimit) :
    ∃ t, statement.run { cursor := .start d.text } = .done () t := by
  obtain ⟨w, p⟩ := d
  obtain ⟨cursor, hcursor, htarget⟩ := run_term .target
    (s := { cursor := .start (Sentence.text ⟨w, p⟩) }) w rfl ((apart_cons (by decide) _).ends w)
  obtain ⟨after, haccept, hafter⟩ := Cursor.acceptAll?_append hcursor
  obtain ⟨o, u, hvalue, hu, -⟩ := (complete_atom (nestingLimit + 1)).sumOf p
    (s := { cursor := after }) hafter (p.ends_of_stops (stops_cons (c := ';') (by simp) _ []))
    (by simpa [Sentence.nesting] using hnesting) (by simp)
  obtain ⟨last, haccept', hlast⟩ :=
    Cursor.acceptAll?_append (show u.cursor.rest = ";".toList ++ [] from hu)
  have hassign : (Reader.expect ":=" .assignSign).run { cursor } = .done () { cursor := after } :=
    Reader.run_expect_eq_done.mpr ⟨after, haccept, rfl⟩
  have hending : (Reader.expect ";" .ending).run u = .done () { u with cursor := last } :=
    Reader.run_expect_eq_done.mpr ⟨last, haccept', rfl⟩
  have hend : last.peek?.isNone = true := by rw [Cursor.peek?, hlast]; rfl
  have hread : assignment.run { cursor := .start (Sentence.text ⟨w, p⟩) } =
      .done (w.term.operand, o) { u with cursor := last } := by
    refine Reader.run_bind_eq_done.mpr ⟨_, _, htarget, ?_⟩
    refine Reader.run_bind_eq_done.mpr ⟨_, _, hassign, ?_⟩
    refine Reader.run_bind_eq_done.mpr ⟨_, _, hvalue, ?_⟩
    refine Reader.run_bind_eq_done.mpr ⟨_, _, hending, ?_⟩
    rw [Reader.run_peek?_bind, if_pos hend]
    rfl
  exact ⟨_, run_statement_eq_done.mpr ⟨_, _, _, hread, rfl⟩⟩

theorem parse_eq_ok_iff_run {source : String} {l : Listing} : parse source = .ok l ↔
    ∃ t, statement.run { cursor := .start source.toList } = .done () t ∧ t.listing = l := by
  unfold parse parseTraced
  constructor
  · intro h
    split at h
    · rename_i t hrun
      exact ⟨t, hrun, Except.ok.inj h⟩
    · cases h
  · rintro ⟨t, hrun, rfl⟩
    rw [hrun]

/-- Reading succeeds on the texts that have a derivation within the limit of nesting, and gives
the triads of the abstract syntax. -/
theorem parse_eq_ok_iff {source : String} {l : Listing} : parse source = .ok l ↔
    ∃ d : Sentence, d.text = source.toList ∧ d.nesting ≤ nestingLimit ∧
      l = d.assignment.listing := by
  constructor
  · intro h
    obtain ⟨t, hrun, rfl⟩ := parse_eq_ok_iff_run.mp h
    exact exists_sentence_of_statement hrun
  · rintro ⟨d, htext, hnesting, rfl⟩
    obtain ⟨t, hrun⟩ := run_statement_of_sentence d hnesting
    -- The derivation behind the run is `d`, because no text has two.
    obtain ⟨d', htext', -, hlisting⟩ := exists_sentence_of_statement hrun
    obtain rfl := Sentence.text_injective htext'
    exact parse_eq_ok_iff_run.mpr ⟨t, htext ▸ hrun, hlisting⟩

/-- A statement that is read has one abstract syntax, and its listing holds the triads of that. -/
theorem exists_assignment_of_parse {source : String} {l : Listing} (h : parse source = .ok l) :
    ∃ a, Denotes source a ∧ (∀ b, Denotes source b → b = a) ∧ l = a.listing := by
  obtain ⟨d, htext, -, rfl⟩ := parse_eq_ok_iff.mp h
  have hd : Denotes source d.assignment := ⟨d, htext, rfl⟩
  exact ⟨d.assignment, hd, fun b hb => hb.unique hd, rfl⟩

/-- Reading succeeds exactly on the texts that the grammar derives with at most 256 brackets and
changes of sign around any place. -/
theorem parse_succeeds_iff_derivable (source : String) :
    (∃ l, parse source = .ok l) ↔ ∃ d : Sentence, d.text = source.toList ∧ d.nesting ≤ 256 := by
  constructor
  · rintro ⟨l, h⟩
    obtain ⟨d, htext, hnesting, -⟩ := parse_eq_ok_iff.mp h
    exact ⟨d, htext, hnesting⟩
  · rintro ⟨d, htext, hnesting⟩
    exact ⟨d.assignment.listing, parse_eq_ok_iff.mpr ⟨d, htext, hnesting, rfl⟩⟩

end ThreeAddress.Statement
