import ThreeAddress.Proofs.Acceptance
import ThreeAddress.Proofs.Breaks
import ThreeAddress.Proofs.Places

/-!
# Reading fails where the text breaks off

A reader that fails has come to the place at which the text breaks off, and gives the cause and the
stage of the break. In turn every text that breaks off is refused at that place. As for success,
both are shown for words, then for chains over any reader of operands, and then, by induction on
the room for nesting, for atoms. So the failures of reading are known exactly, and they can be
studied on the grammar alone.
-/
namespace ThreeAddress.Statement
open Text Grammar

/-! ## Failing in sequence -/

namespace Reader

/-- From this session on the reader fails before the text `rest`. -/
def FailsAt {α : Type} (reader : Reader α) (s : Session) (cause : Cause) (stage : Stage)
    (rest : List Char) : Prop :=
  ∃ cursor t, reader.run s = .failed ⟨cause, stage, cursor⟩ t ∧ cursor.rest = rest

namespace FailsAt
variable {α β : Type} {first : Reader α} {next : α → Reader β} {s t : Session} {cause : Cause}
  {stage : Stage} {rest : List Char}

theorem bind (h : first.FailsAt s cause stage rest) :
    (first >>= next).FailsAt s cause stage rest := by
  obtain ⟨cursor, t, hrun, hrest⟩ := h
  exact ⟨cursor, t, run_bind_eq_failed.mpr (.inl hrun), hrest⟩

theorem bind_of_done {a : α} (hfirst : first.run s = .done a t)
    (h : (next a).FailsAt t cause stage rest) : (first >>= next).FailsAt s cause stage rest := by
  obtain ⟨cursor, u, hrun, hrest⟩ := h
  exact ⟨cursor, u, run_bind_eq_failed.mpr (.inr ⟨a, t, hfirst, hrun⟩), hrest⟩

end FailsAt

theorem failsAt_expect {token : String} (stage : Stage) {s : Session} {rest : List Char}
    (hrest : s.cursor.rest = rest) (h : ¬token.toList <+: rest) :
    (expect token stage).FailsAt s (.missing token) stage rest :=
  ⟨s.cursor, s, run_expect_eq_failed.mpr ⟨hrest ▸ h, rfl, rfl⟩, hrest⟩

theorem FailsAt.enclosed {α : Type} (opening : Opening) {inside otherwise : Reader α} {s : Session}
    {cs : List Char} (hrest : s.cursor.rest = opening.char :: cs) (hlow : s.depth < nestingLimit)
    {cause : Cause} {stage : Stage} {rest : List Char}
    (h : inside.FailsAt (s.behind opening cs) cause stage rest) :
    (Reader.enclosed opening inside otherwise).FailsAt s cause stage rest := by
  obtain ⟨cursor, t, hrun, hcursor⟩ := h
  refine ⟨cursor, t, ?_, hcursor⟩
  rw [run_enclosed_of_lt hrest hlow, hrun]
  rfl

theorem failsAt_enclosed_of_le {α : Type} (opening : Opening) {inside otherwise : Reader α}
    {s : Session} {cs : List Char} (hrest : s.cursor.rest = opening.char :: cs)
    (hfull : nestingLimit ≤ s.depth) :
    (Reader.enclosed opening inside otherwise).FailsAt s .tooDeep .operand cs :=
  ⟨_, _, run_enclosed_of_le hrest hfull, rfl⟩

end Reader

open Reader (FailsAt)

/-! ## Words -/

theorem failsAt_numeral (stage : Stage) {s : Session} {run rest : List Char}
    (hrest : s.cursor.rest = run ++ rest) (hparts : ∀ c ∈ run, isNumeralPart c)
    (hlongest : ∀ c ∈ rest.head?, isNumeralPart c = false) (hwrong : ¬IsNumeral run) :
    (numeral stage).FailsAt s (.badNumeral (String.ofList run)) stage s.cursor.rest := by
  have hrun := (Cursor.takeWhile_of_append hrest hparts hlongest).1
  have hnone : Binary64.ofNumeral? run = none := by
    rw [Option.eq_none_iff_forall_ne_some]
    exact fun value hvalue => hwrong (isSome_ofNumeral?_iff.mp (Option.isSome_of_eq_some hvalue))
  refine ⟨s.cursor, s, Reader.run_word_eq_failed.mpr ⟨_, ?_, rfl, rfl⟩, rfl⟩
  rw [hrun, numeralOperand, hnone]

theorem failsAt_quoted_content (stage : Stage) {s : Session}
    (h : ∀ c ∈ s.cursor.rest.head?, isAlphanumeric c = false) :
    (quoted stage).FailsAt s (.badQuote .content) stage s.cursor.rest := by
  unfold quoted
  refine ⟨s.cursor, s, ?_, rfl⟩
  rw [Reader.run_peek?_bind, Cursor.peek?]
  cases hhead : s.cursor.rest.head? with
  | none => rfl
  | some c =>
    have hc : ¬isQuotable c := by simp [isQuotable, h c hhead]
    dsimp only
    rw [if_neg hc]
    rfl

theorem failsAt_quoted_closing (stage : Stage) {s : Session} {c : Char} {rest : List Char}
    (hrest : s.cursor.rest = c :: rest) (hc : isQuotable c) (hclose : rest.head? ≠ some '\'') :
    (quoted stage).FailsAt s (.badQuote .closing) stage rest := by
  unfold quoted
  refine ⟨s.cursor.past c rest, { s with cursor := s.cursor.past c rest }, ?_, rfl⟩
  have hpeek : s.cursor.peek? = some c := by rw [Cursor.peek?, hrest]; rfl
  have hother : (s.cursor.past c rest).peek? ≠ some '\'' := hclose
  rw [Reader.run_peek?_bind, hpeek]
  dsimp only
  rw [if_pos hc, Reader.run_skip_bind hrest, Reader.run_peek?_bind, if_neg hother]
  rfl

/-- A text that breaks off where a word should stand is refused there. -/
theorem failsAt_term (stage : Stage) {s : Session} {consumed rest : List Char} {cause : Cause}
    (hrest : s.cursor.rest = consumed ++ rest) (h : WordBreaks consumed cause rest) :
    (term stage).FailsAt s cause stage rest := by
  unfold term
  rw [FailsAt, Reader.run_peek?_bind, Cursor.peek?, hrest]
  cases h with
  | ended => exact ⟨s.cursor, s, rfl, hrest⟩
  | unexpected letter part quote =>
    simp only [List.nil_append, List.head?_cons]
    rw [if_neg (by simp [isNameStart, letter]), if_neg (by simp [part]), if_neg quote]
    exact ⟨s.cursor, s, rfl, hrest⟩
  | @badNumeral run rest parts some longest wrong =>
    obtain ⟨c, cs, rfl⟩ := List.exists_cons_of_ne_nil some
    have hc : isNumeralPart c := parts c List.mem_cons_self
    have hnumeral : s.cursor.rest = (c :: cs) ++ rest := hrest
    have hfails := failsAt_numeral stage hnumeral parts longest wrong
    rw [hrest] at hfails
    simp only [List.nil_append, List.cons_append, List.head?_cons]
    rw [if_neg (by simp [isNameStart, isAlphabetic_of_isNumeralPart hc]), if_pos hc]
    exact hfails
  | content other =>
    have hskip := Reader.run_skip hrest
    simp only [List.cons_append, List.head?_cons]
    rw [if_neg (by decide), if_neg (by decide), if_pos trivial]
    exact FailsAt.bind_of_done hskip (failsAt_quoted_content stage other)
  | @closing c rest quotable other =>
    have hskip := Reader.run_skip hrest
    simp only [List.cons_append, List.head?_cons]
    rw [if_neg (by decide), if_neg (by decide), if_pos trivial]
    exact FailsAt.bind_of_done hskip (failsAt_quoted_closing stage rfl quotable other)

theorem wordBreaks_of_term {stage : Stage} {s t : Session} {f : Failure}
    (h : (term stage).run s = .failed f t) :
    ∃ consumed, s.cursor.rest = consumed ++ f.cursor.rest ∧ f.stage = stage ∧
      WordBreaks consumed f.cause f.cursor.rest := by
  obtain ⟨w, rest, hrest, hends⟩ | ⟨consumed, rest, cause, hrest, hbreaks⟩ :=
    wordOrBreak s.cursor.rest
  · obtain ⟨cursor, -, hdone⟩ := run_term stage w hrest hends
    rw [hdone] at h
    cases h
  · obtain ⟨cursor, t, hfailed, rfl⟩ := failsAt_term stage hrest hbreaks
    rw [hfailed] at h
    cases h
    exact ⟨consumed, hrest, rfl, hbreaks⟩

/-! ## Failure follows the text -/

/-- Whenever the reader fails, the text breaks off there. -/
def Rejects (reader : Reader Operand) (k : Kind) (room : Nat) : Prop :=
  ∀ ⦃s t : Session⦄ ⦃f : Failure⦄, s.depth ≤ nestingLimit → nestingLimit < s.depth + room →
    reader.run s = .failed f t →
    ∃ consumed, s.cursor.rest = consumed ++ f.cursor.rest ∧
      PhraseBreaks k s.depth consumed f.cause f.stage f.cursor.rest

/-- A chain breaks off in the operand after one of its operators. -/
def TailBreaks (level : Precedence) (depth : Nat) (text : List Char) (cause : Cause) (stage : Stage)
    (rest : List Char) : Prop :=
  ∃ (q : Tail level) (op : BinaryOperator) (consumed : List Char), op.level = level ∧
    text = q.text ++ op.sign :: consumed ∧ depth + q.nesting ≤ nestingLimit ∧
    PhraseBreaks (operandKind level) depth consumed cause stage rest

theorem Rejects.rounds {level : Precedence} {operand : Reader Operand} {room : Nat}
    (hsound : Sound operand (operandKind level))
    (hoperand : Rejects operand (operandKind level) room)
    {left : Operand} {s t : Session} {f : Failure} (hdepth : s.depth ≤ nestingLimit)
    (hroom : nestingLimit < s.depth + room)
    (h : (Reader.rounds level operand left).run s = .failed f t) :
    ∃ consumed, s.cursor.rest = consumed ++ f.cursor.rest ∧
      TailBreaks level s.depth consumed f.cause f.stage f.cursor.rest := by
  revert hdepth hroom h
  refine Reader.rounds_induction level operand (P := fun _ s o => s.depth ≤ nestingLimit →
    nestingLimit < s.depth + room → o = .failed f t → ∃ consumed,
      s.cursor.rest = consumed ++ f.cursor.rest ∧
        TailBreaks level s.depth consumed f.cause f.stage f.cursor.rest) ?_ ?_ ?_ left s
  · intro left s hnone _ _ h
    cases h
  · intro left s operator cursor g u hnext hfailed hdepth hroom h
    cases h
    obtain ⟨op, hlevel, rfl, hsign⟩ := exists_sign_of_nextOperator? hnext
    obtain ⟨consumed, hrest, hbreaks⟩ := hoperand (s := { s with cursor }) hdepth hroom hfailed
    refine ⟨op.sign :: consumed, ?_, .done, op, consumed, hlevel, rfl, hdepth, hbreaks⟩
    have hrest : cursor.rest = consumed ++ f.cursor.rest := hrest
    rw [hsign, hrest, List.cons_append]
  · intro left s operator cursor right u hnext hdone ih hdepth hroom h
    obtain ⟨op, hlevel, rfl, hsign⟩ := exists_sign_of_nextOperator? hnext
    obtain ⟨p, hp⟩ := hsound (s := { s with cursor }) hdepth hdone
    have hdepth' : u.depth = s.depth := hp.depth
    obtain ⟨_, hrest, q, op', consumed, hlevel', rfl, hnesting, hbreaks⟩ :=
      ih (by rwa [Session.depth_emitOperation, hdepth'])
        (by rwa [Session.depth_emitOperation, hdepth']) h
    rw [Session.depth_emitOperation, hdepth'] at hnesting hbreaks
    refine ⟨_, ?_, .more op hlevel p q, op', consumed, hlevel', rfl, ?_, hbreaks⟩
    · have hright : cursor.rest = p.text ++ u.cursor.rest := hp.rest
      have hafter : u.cursor.rest = (q.text ++ op'.sign :: consumed) ++ f.cursor.rest := hrest
      rw [hsign, hright, hafter, Tail.text]
      simp
    · have hright : s.depth + p.nesting ≤ nestingLimit := hp.nesting
      simp only [Tail.nesting]
      omega

theorem Rejects.chain (level : Precedence) {operand : Reader Operand} {room : Nat}
    (hsound : Sound operand (operandKind level))
    (hoperand : Rejects operand (operandKind level) room) :
    Rejects (Statement.chain level operand) (.chain level) room := by
  intro s t f hdepth hroom h
  obtain hannounce | ⟨_, s', hannounce, h⟩ := Reader.run_bind_eq_failed.mp h
  · cases hannounce
  cases hannounce
  obtain hfirst | ⟨first, u, hfirst, h⟩ := Reader.run_bind_eq_failed.mp h
  · obtain ⟨consumed, hrest, hbreaks⟩ := hoperand (by exact hdepth) (by exact hroom) hfirst
    exact ⟨consumed, hrest, .first hbreaks⟩
  · obtain ⟨p, hp⟩ := hsound (by exact hdepth) hfirst
    have hdepth' : u.depth = s.depth := hp.depth
    obtain ⟨_, hrest, q, op, consumed, hlevel, rfl, hnesting, hbreaks⟩ :=
      hoperand.rounds hsound (by rwa [hdepth']) (by rwa [hdepth']) h
    rw [hdepth'] at hnesting hbreaks
    refine ⟨_, ?_, .later (.chain p q) ?_ op hlevel hbreaks⟩
    · have hfirst : s.cursor.rest = p.text ++ u.cursor.rest := hp.rest
      rw [hfirst, hrest, Phrase.text]
      simp
    · have hfirst : s.depth + p.nesting ≤ nestingLimit := hp.nesting
      simp only [Phrase.nesting]
      omega

theorem Rejects.sumOf {atom : Reader Operand} {room : Nat} (hsound : Sound atom .atom)
    (h : Rejects atom .atom room) : Rejects (Statement.sumOf atom) (.chain .sum) room :=
  Rejects.chain .sum (Sound.chain .product hsound) (Rejects.chain .product hsound h)

/-- Behind a bracket or a sign, reading fails in what it encloses, unless the level itself is one too
many. -/
theorem breaks_or_failed_of_enclosed (opening : Opening) {inside otherwise : Reader Operand}
    {s t : Session} {f : Failure} {cs : List Char} (hrest : s.cursor.rest = opening.char :: cs)
    (h : (Reader.enclosed opening inside otherwise).run s = .failed f t) :
    (∃ consumed, s.cursor.rest = consumed ++ f.cursor.rest ∧
      PhraseBreaks .atom s.depth consumed f.cause f.stage f.cursor.rest) ∨
    s.depth < nestingLimit ∧ inside.run (s.behind opening cs) = .failed f t := by
  obtain hlow | hfull := Nat.lt_or_ge s.depth nestingLimit
  · rw [Reader.run_enclosed_of_lt hrest hlow] at h
    exact .inr ⟨hlow, Reader.leave_eq_failed.mp h⟩
  · rw [Reader.run_enclosed_of_le hrest hfull] at h
    cases h
    have hopens : opening.char = '(' ∨ opening.char = '-' := by
      cases opening with
      | bracket => exact .inl rfl
      | sign => exact .inr rfl
    exact .inl ⟨[opening.char], hrest, .tooDeep hopens hfull⟩

theorem Rejects.atomOver {nested : Reader Operand} {room : Nat} (hsound : Sound nested .atom)
    (hnested : Rejects nested .atom room) :
    Rejects (Statement.atomOver nested) .atom (room + 1) := by
  intro s t f hdepth hroom h
  obtain ⟨cs, hrest⟩ | ⟨cs, hrest⟩ | hplain := starts_cases s
  · obtain hbreaks | ⟨hlow, h⟩ := breaks_or_failed_of_enclosed .bracket hrest h
    · exact hbreaks
    obtain hinner | ⟨inner, u, hinner, h⟩ := Reader.run_bind_eq_failed.mp h
    · obtain ⟨consumed, hinside, hbreaks⟩ := hnested.sumOf hsound (by exact hlow)
        (by rw [Session.depth_behind]; omega) hinner
      have hinside : cs = consumed ++ f.cursor.rest := hinside
      exact ⟨'(' :: consumed, by rw [hrest, hinside, List.cons_append], .bracketed hlow hbreaks⟩
    · obtain ⟨p, hp⟩ := hsound.sumOf (by exact hlow) hinner
      obtain hexpect | ⟨_, u', -, h⟩ := Reader.run_bind_eq_failed.mp h
      · obtain ⟨hother, rfl, -⟩ := Reader.run_expect_eq_failed.mp hexpect
        have hinside : cs = p.text ++ u.cursor.rest := hp.rest
        exact ⟨'(' :: p.text, by rw [hrest, hinside, List.cons_append],
          .unclosed p hp.nesting hp.ends hother⟩
      · cases h
  · rw [run_atomOver_of_sign hrest] at h
    obtain hbreaks | ⟨hlow, h⟩ := breaks_or_failed_of_enclosed .sign hrest h
    · exact hbreaks
    obtain hinner | ⟨inner, u, hinner, h⟩ := Reader.run_bind_eq_failed.mp h
    · obtain ⟨consumed, hinside, hbreaks⟩ := hnested (by exact hlow)
        (by rw [Session.depth_behind]; omega) hinner
      have hinside : cs = consumed ++ f.cursor.rest := hinside
      exact ⟨'-' :: consumed, by rw [hrest, hinside, List.cons_append], .signed hlow hbreaks⟩
    · cases h
  · rw [run_atomOver_of_plain hplain] at h
    obtain ⟨consumed, hrest, hstage, hbreaks⟩ := wordBreaks_of_term h
    refine ⟨consumed, hrest, ?_⟩
    rw [hstage]
    refine .word hbreaks fun c hc => ?_
    rw [← hrest] at hc
    exact hplain c hc

/-- Where an atom is refused, the text breaks off. -/
theorem rejects_atom (room : Nat) : Rejects (atom room) .atom room := by
  induction room with
  | zero =>
    intro s t f hdepth hroom h
    omega
  | succ room ih => exact ih.atomOver (sound_atom room)

/-! ## A text that breaks off is refused -/

/-- The reader fails on every text that breaks off, at the break. -/
def Refuses (reader : Reader Operand) (k : Kind) (room : Nat) : Prop :=
  ∀ ⦃s : Session⦄ ⦃consumed rest : List Char⦄ ⦃cause : Cause⦄ ⦃stage : Stage⦄,
    s.cursor.rest = consumed ++ rest → PhraseBreaks k s.depth consumed cause stage rest →
    s.depth ≤ nestingLimit → nestingLimit < s.depth + room → reader.FailsAt s cause stage rest

theorem Refuses.rounds {level : Precedence} {operand : Reader Operand} {room : Nat}
    (hcomplete : Complete operand (operandKind level) room)
    (hoperand : Refuses operand (operandKind level) room) {op : BinaryOperator}
    (hlevel : op.level = level) {consumed rest : List Char} {cause : Cause} {stage : Stage} :
    ∀ (q : Tail level) {s : Session} (left : Operand),
      s.cursor.rest = q.text ++ op.sign :: (consumed ++ rest) → s.depth + q.nesting ≤ nestingLimit →
      nestingLimit < s.depth + room →
      PhraseBreaks (operandKind level) s.depth consumed cause stage rest →
      (Reader.rounds level operand left).FailsAt s cause stage rest
  | .done, s, left, hrest, hdepth, hroom, hbreaks => by
    obtain ⟨cursor, t, hrun, hcursor⟩ := hoperand
      (s := { s with cursor := s.cursor.past op.sign _ }) rfl hbreaks hdepth hroom
    exact ⟨cursor, t, Reader.run_rounds_of_failed left (nextOperator?_sign hlevel hrest) hrun,
      hcursor⟩
  | .more op' known p q, s, left, hrest, hnesting, hroom, hbreaks => by
    have hrest : s.cursor.rest =
        op'.sign :: (p.text ++ (q.text ++ op.sign :: (consumed ++ rest))) := by
      rw [hrest, Tail.text, List.cons_append, List.append_assoc]
    simp only [Tail.nesting] at hnesting
    have hends := p.ends_of_stops (Tail.stops_append_sign q hlevel (consumed ++ rest))
    obtain ⟨right, u, hright, hu, hdepth⟩ := hcomplete p
      (s := { s with cursor := s.cursor.past op'.sign _ }) rfl hends (by dsimp only; omega) hroom
    have hdepth : u.depth = s.depth := hdepth
    rw [FailsAt, Reader.run_rounds_of_done left (nextOperator?_sign known hrest) hright]
    exact Refuses.rounds hcomplete hoperand hlevel q _ hu
      (by rw [Session.depth_emitOperation, hdepth]; omega)
      (by rwa [Session.depth_emitOperation, hdepth]) (by rwa [Session.depth_emitOperation, hdepth])

theorem Refuses.chain (level : Precedence) {operand : Reader Operand} {room : Nat}
    (hcomplete : Complete operand (operandKind level) room)
    (hoperand : Refuses operand (operandKind level) room) :
    Refuses (Statement.chain level operand) (.chain level) room := by
  intro s consumed rest cause stage hrest hbreaks hdepth hroom
  have hannounce : (Reader.announce level).run s = .done () (s.announce level) := rfl
  refine FailsAt.bind_of_done hannounce ?_
  cases hbreaks with
  | first breaks =>
    exact (hoperand (s := s.announce level) hrest breaks hdepth hroom).bind
  | @later _ _ consumed _ _ _ before fits op known breaks =>
    cases before with | chain first q =>
    simp only [Phrase.nesting] at fits
    have hrest : (s.announce level).cursor.rest =
        first.text ++ (q.text ++ op.sign :: (consumed ++ rest)) := by
      rw [Session.cursor_announce, hrest, Phrase.text]
      simp
    have hends := first.ends_of_stops (Tail.stops_append_sign q known (consumed ++ rest))
    obtain ⟨left, u, hfirst, hu, hsame⟩ := hcomplete first hrest hends
      (by rw [Session.depth_announce]; omega) hroom
    have hsame : u.depth = s.depth := hsame
    refine FailsAt.bind_of_done hfirst ?_
    exact hoperand.rounds hcomplete known q left hu (by omega) (by omega) (by rwa [hsame])

theorem Refuses.sumOf {atom : Reader Operand} {room : Nat} (hcomplete : Complete atom .atom room)
    (h : Refuses atom .atom room) : Refuses (Statement.sumOf atom) (.chain .sum) room :=
  Refuses.chain .sum (Complete.chain .product hcomplete) (Refuses.chain .product hcomplete h)

theorem Refuses.atomOver {nested : Reader Operand} {room : Nat}
    (hcomplete : Complete nested .atom room) (hnested : Refuses nested .atom room) :
    Refuses (Statement.atomOver nested) .atom (room + 1) := by
  intro s consumed rest cause stage hrest hbreaks hdepth hroom
  cases hbreaks with
  | word breaks plain =>
    have hplain : ∀ c ∈ s.cursor.peek?, c ≠ '(' ∧ c ≠ '-' := by rwa [Cursor.peek?, hrest]
    rw [FailsAt, run_atomOver_of_plain hplain]
    exact failsAt_term .operand hrest breaks
  | tooDeep opens full =>
    rcases opens with rfl | rfl
    · exact Reader.failsAt_enclosed_of_le .bracket hrest full
    · rw [FailsAt, run_atomOver_of_sign hrest]
      exact Reader.failsAt_enclosed_of_le .sign hrest full
  | @bracketed _ consumed _ _ _ hlow inner =>
    have hfails := hnested.sumOf hcomplete (s := s.behind .bracket (consumed ++ rest)) rfl
      inner hlow (by rw [Session.depth_behind]; omega)
    exact .enclosed .bracket hrest hlow hfails.bind
  | unclosed inner fits ends other =>
    have hlow : s.depth < nestingLimit := by omega
    obtain ⟨o, u, hinner, hu, -⟩ := hcomplete.sumOf inner
      (s := s.behind .bracket (inner.text ++ rest)) rfl ends fits
      (by rw [Session.depth_behind]; omega)
    refine .enclosed .bracket hrest hlow (.bind_of_done hinner ?_)
    exact (Reader.failsAt_expect .closingBracket hu other).bind
  | @signed _ consumed _ _ _ hlow inner =>
    have hfails := hnested (s := s.behind .sign (consumed ++ rest)) rfl inner hlow
      (by rw [Session.depth_behind]; omega)
    rw [FailsAt, run_atomOver_of_sign hrest]
    exact FailsAt.enclosed .sign hrest hlow hfails.bind

/-- An atom that breaks off is refused at the break. -/
theorem refuses_atom (room : Nat) : Refuses (atom room) .atom room := by
  induction room with
  | zero =>
    intro s consumed rest cause stage hrest hbreaks hdepth hroom
    omega
  | succ room ih => exact ih.atomOver (complete_atom room)

/-! ## Whole statements -/

theorem sentenceBreaks_of_assignment {text : List Char} {f : Failure} {t : Session}
    (h : assignment.run { cursor := .start text } = .failed f t) :
    ∃ consumed, text = consumed ++ f.cursor.rest ∧
      SentenceBreaks consumed f.cause f.stage f.cursor.rest := by
  obtain htarget | ⟨target, s, htarget, h⟩ := Reader.run_bind_eq_failed.mp h
  · obtain ⟨consumed, hrest, hstage, hbreaks⟩ := wordBreaks_of_term htarget
    exact ⟨consumed, hrest, hstage ▸ .target hbreaks⟩
  obtain ⟨w, hword, hends, -, hs⟩ := exists_word_of_term htarget
  have hword : text = w.text ++ s.cursor.rest := hword
  obtain hassign | ⟨_, s', hassign, h⟩ := Reader.run_bind_eq_failed.mp h
  · obtain ⟨hother, rfl, -⟩ := Reader.run_expect_eq_failed.mp hassign
    exact ⟨w.text, hword, .assignSign w hends hother⟩
  obtain ⟨cursor, haccept, rfl⟩ := Reader.run_expect_eq_done.mp hassign
  have hassign := Cursor.rest_of_acceptAll? haccept
  have hdepth : s.depth = 0 := by rw [hs]
  obtain hvalue | ⟨value, u, hvalue, h⟩ := Reader.run_bind_eq_failed.mp h
  · obtain ⟨consumed, hrest, hbreaks⟩ := (rejects_atom _).sumOf (sound_atom _)
      (by dsimp only; omega) (by dsimp only; omega) hvalue
    have hrest : cursor.rest = consumed ++ f.cursor.rest := hrest
    simp only [hdepth] at hbreaks
    refine ⟨w.text ++ (":=".toList ++ consumed), ?_, .value w hbreaks⟩
    simp only [hword, hassign, hrest, List.append_assoc]
  obtain ⟨p, hp⟩ := (sound_atom _).sumOf (by dsimp only; omega) hvalue
  have hvalue : cursor.rest = p.text ++ u.cursor.rest := hp.rest
  have hnesting : p.nesting ≤ nestingLimit := Nat.le_trans (Nat.le_add_left ..) hp.nesting
  obtain hending | ⟨_, u', hending, h⟩ := Reader.run_bind_eq_failed.mp h
  · obtain ⟨hother, rfl, -⟩ := Reader.run_expect_eq_failed.mp hending
    refine ⟨w.text ++ (":=".toList ++ p.text), ?_, .ending w p hnesting hp.ends hother⟩
    simp only [hword, hassign, hvalue, List.append_assoc]
  obtain ⟨cursor', haccept', rfl⟩ := Reader.run_expect_eq_done.mp hending
  have hending := Cursor.rest_of_acceptAll? haccept'
  rw [Reader.run_peek?_bind] at h
  split at h
  · cases h
  · next hend =>
    cases h
    have hmore : cursor'.rest ≠ [] := by simpa [Cursor.peek?] using hend
    refine ⟨Sentence.text ⟨w, p⟩, ?_, .leftover ⟨w, p⟩ hnesting hmore⟩
    simp only [hword, hassign, hvalue, hending, Sentence.text, List.append_assoc]

/-- A target and an assignment sign are read, whatever follows. -/
theorem exists_run_target_and_sign (w : Word) (more : List Char) : ∃ cursor after : Cursor,
    (term .target).run { cursor := .start (w.text ++ (":=".toList ++ more)) } =
      .done w.term.operand { cursor } ∧
    (Reader.expect ":=" .assignSign).run { cursor } = .done () { cursor := after } ∧
    after.rest = more := by
  obtain ⟨cursor, hcursor, htarget⟩ := run_term .target
    (s := { cursor := .start (w.text ++ (":=".toList ++ more)) }) w rfl
    ((apart_cons (by decide) _).ends w)
  obtain ⟨after, haccept, hafter⟩ := Cursor.acceptAll?_append hcursor
  exact ⟨cursor, after, htarget, Reader.run_expect_eq_done.mpr ⟨after, haccept, rfl⟩, hafter⟩

theorem failsAt_assignment {consumed rest : List Char} {cause : Cause} {stage : Stage}
    (h : SentenceBreaks consumed cause stage rest) :
    assignment.FailsAt { cursor := .start (consumed ++ rest) } cause stage rest := by
  cases h with
  | target breaks => exact (failsAt_term .target rfl breaks).bind
  | assignSign w ends other =>
    obtain ⟨cursor, hcursor, htarget⟩ := run_term .target
      (s := { cursor := .start (w.text ++ rest) }) w rfl ends
    exact FailsAt.bind_of_done htarget (Reader.failsAt_expect .assignSign hcursor other).bind
  | @value consumed _ _ _ w breaks =>
    obtain ⟨cursor, after, htarget, hsign, hafter⟩ :=
      exists_run_target_and_sign w (consumed ++ rest)
    have hvalue := (refuses_atom (nestingLimit + 1)).sumOf (complete_atom _)
      (s := { cursor := after }) hafter breaks (Nat.zero_le _) (by simp)
    rw [List.append_assoc, List.append_assoc]
    exact FailsAt.bind_of_done htarget (FailsAt.bind_of_done hsign hvalue.bind)
  | ending w p fits ends other =>
    obtain ⟨cursor, after, htarget, hsign, hafter⟩ :=
      exists_run_target_and_sign w (p.text ++ rest)
    obtain ⟨o, u, hvalue, hu, -⟩ := (complete_atom (nestingLimit + 1)).sumOf p
      (s := { cursor := after }) hafter ends (by simpa using fits) (by simp)
    rw [List.append_assoc, List.append_assoc]
    refine FailsAt.bind_of_done htarget (FailsAt.bind_of_done hsign ?_)
    exact FailsAt.bind_of_done hvalue (Reader.failsAt_expect .ending hu other).bind
  | leftover d fits more =>
    obtain ⟨w, p⟩ := d
    obtain ⟨cursor, after, htarget, hsign, hafter⟩ :=
      exists_run_target_and_sign w (p.text ++ (";".toList ++ rest))
    obtain ⟨o, u, hvalue, hu, -⟩ := (complete_atom (nestingLimit + 1)).sumOf p
      (s := { cursor := after }) hafter (p.ends_of_stops (stops_cons (c := ';') (by simp) _ rest))
      (by simpa [Sentence.nesting] using fits) (by simp)
    obtain ⟨last, haccept, hlast⟩ := Cursor.acceptAll?_append hu
    have hending : (Reader.expect ";" .ending).run u = .done () { u with cursor := last } :=
      Reader.run_expect_eq_done.mpr ⟨last, haccept, rfl⟩
    have hend : ¬last.peek?.isNone = true := by simpa [Cursor.peek?, hlast] using more
    have htext : Sentence.text ⟨w, p⟩ ++ rest =
        w.text ++ (":=".toList ++ (p.text ++ (";".toList ++ rest))) := by
      simp only [Sentence.text, List.append_assoc]
    rw [htext]
    refine FailsAt.bind_of_done htarget (FailsAt.bind_of_done hsign ?_)
    refine FailsAt.bind_of_done hvalue (FailsAt.bind_of_done hending ?_)
    rw [FailsAt, Reader.run_peek?_bind, if_neg hend]
    exact ⟨last, { u with cursor := last }, rfl, hlast⟩

theorem parse_eq_error_iff_run {source : String} {f : Failure} : parse source = .error f ↔
    ∃ t, statement.run { cursor := .start source.toList } = .failed f t := by
  unfold parse parseTraced
  cases statement.run { cursor := .start source.toList } with
  | done _ t => simp
  | failed g t => simp

/-- Where reading fails and why: exactly as the text breaks off. -/
theorem parse_eq_error_iff {source : String} {f : Failure} : parse source = .error f ↔
    ∃ consumed rest, source.toList = consumed ++ rest ∧
      SentenceBreaks consumed f.cause f.stage rest ∧
      f.cursor = ⟨source.toList, byteLength consumed, rest⟩ := by
  have hplace : ∀ {f : Failure} {t : Session},
      assignment.run { cursor := .start source.toList } = .failed f t →
      f.cursor.StandsIn source.toList := by
    intro f t hrun
    have hstands := assignment.standsIn_place (s := { cursor := .start source.toList })
      (Cursor.standsIn_start source.toList)
    rwa [hrun] at hstands
  simp only [parse_eq_error_iff_run, run_statement_eq_failed]
  constructor
  · rintro ⟨t, hrun⟩
    obtain ⟨consumed, htext, hbreaks⟩ := sentenceBreaks_of_assignment hrun
    exact ⟨consumed, f.cursor.rest, htext, hbreaks, (hplace hrun).eq_of_append htext⟩
  · rintro ⟨consumed, rest, htext, hbreaks, hcursor⟩
    obtain ⟨cursor, t, hrun, rfl⟩ := failsAt_assignment hbreaks
    rw [← htext] at hrun
    have hsame : cursor = f.cursor := by
      rw [hcursor]
      exact (hplace hrun).eq_of_append htext
    refine ⟨t, ?_⟩
    rw [hrun, hsame]

end ThreeAddress.Statement
