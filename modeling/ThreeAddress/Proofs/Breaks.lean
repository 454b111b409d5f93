import Mathlib.Data.List.Basic
import ThreeAddress.Proofs.Grammar
import ThreeAddress.Statement.Failure

/-!
# How statements break off

A text that is no statement breaks off somewhere. The relations below say how, for words, phrases
and whole statements: what was in order, why it cannot go on, what was being read, and the text that
follows. They follow the grammar and know nothing about readers. What is complete before the break
is kept as its derivation, so that it can be completed, or read, as a whole.

Three facts are drawn from them: up to the break the text can be completed to a statement, unless
the break is one bracket or sign too many; more text at the end changes a break only where too
little text was left to tell; and the cause of a break fits the text around it.
-/
namespace ThreeAddress.Grammar
open Text Statement

/-! ## The ways to break off -/

/-- How a text breaks off that should be a word. -/
inductive WordBreaks : List Char → Cause → List Char → Prop where
  | ended : WordBreaks [] .ended []
  | unexpected {c : Char} {rest : List Char} (letter : isAlphabetic c = false)
      (part : isNumeralPart c = false) (quote : c ≠ '\'') :
      WordBreaks [] (.unexpected c) (c :: rest)
  /-- A run of digits and points that is no numeral breaks off before its start. -/
  | badNumeral {run rest : List Char} (parts : ∀ c ∈ run, isNumeralPart c) (some : run ≠ [])
      (longest : ∀ c ∈ rest.head?, isNumeralPart c = false) (wrong : ¬IsNumeral run) :
      WordBreaks [] (.badNumeral (String.ofList run)) (run ++ rest)
  | content {rest : List Char} (other : ∀ c ∈ rest.head?, isAlphanumeric c = false) :
      WordBreaks ['\''] (.badQuote .content) rest
  | closing {c : Char} {rest : List Char} (quotable : isAlphanumeric c)
      (other : rest.head? ≠ some '\'') : WordBreaks ['\'', c] (.badQuote .closing) rest

/-- How a text breaks off that should be a phrase of a kind, with so many brackets and changes of
sign around it. -/
inductive PhraseBreaks : Kind → Nat → List Char → Cause → Stage → List Char → Prop where
  | word {depth : Nat} {consumed rest : List Char} {cause : Cause}
      (breaks : WordBreaks consumed cause rest)
      (plain : ∀ c ∈ (consumed ++ rest).head?, c ≠ '(' ∧ c ≠ '-') :
      PhraseBreaks .atom depth consumed cause .operand rest
  | tooDeep {depth : Nat} {opening : Char} {rest : List Char}
      (opens : opening = '(' ∨ opening = '-') (full : nestingLimit ≤ depth) :
      PhraseBreaks .atom depth [opening] .tooDeep .operand rest
  | bracketed {depth : Nat} {consumed rest : List Char} {cause : Cause} {stage : Stage}
      (room : depth < nestingLimit)
      (inner : PhraseBreaks (.chain .sum) (depth + 1) consumed cause stage rest) :
      PhraseBreaks .atom depth ('(' :: consumed) cause stage rest
  | unclosed {depth : Nat} {rest : List Char} (inner : Phrase (.chain .sum))
      (fits : depth + 1 + inner.nesting ≤ nestingLimit) (ends : inner.Ends rest)
      (other : ¬")".toList <+: rest) :
      PhraseBreaks .atom depth ('(' :: inner.text) (.missing ")") .closingBracket rest
  | signed {depth : Nat} {consumed rest : List Char} {cause : Cause} {stage : Stage}
      (room : depth < nestingLimit)
      (inner : PhraseBreaks .atom (depth + 1) consumed cause stage rest) :
      PhraseBreaks .atom depth ('-' :: consumed) cause stage rest
  | first {level : Precedence} {depth : Nat} {consumed rest : List Char} {cause : Cause}
      {stage : Stage} (breaks : PhraseBreaks (operandKind level) depth consumed cause stage rest) :
      PhraseBreaks (.chain level) depth consumed cause stage rest
  /-- The operand after an operator breaks off. -/
  | later {level : Precedence} {depth : Nat} {consumed rest : List Char} {cause : Cause}
      {stage : Stage} (before : Phrase (.chain level))
      (fits : depth + before.nesting ≤ nestingLimit)
      (op : BinaryOperator) (known : op.level = level)
      (breaks : PhraseBreaks (operandKind level) depth consumed cause stage rest) :
      PhraseBreaks (.chain level) depth (before.text ++ op.sign :: consumed) cause stage rest

/-- How a text breaks off that should be a statement. -/
inductive SentenceBreaks : List Char → Cause → Stage → List Char → Prop where
  | target {consumed rest : List Char} {cause : Cause} (breaks : WordBreaks consumed cause rest) :
      SentenceBreaks consumed cause .target rest
  | assignSign {rest : List Char} (target : Word) (ends : target.Ends rest)
      (other : ¬":=".toList <+: rest) :
      SentenceBreaks target.text (.missing ":=") .assignSign rest
  | value {consumed rest : List Char} {cause : Cause} {stage : Stage} (target : Word)
      (breaks : PhraseBreaks (.chain .sum) 0 consumed cause stage rest) :
      SentenceBreaks (target.text ++ (":=".toList ++ consumed)) cause stage rest
  | ending {rest : List Char} (target : Word) (value : Phrase (.chain .sum))
      (fits : value.nesting ≤ nestingLimit) (ends : value.Ends rest)
      (other : ¬";".toList <+: rest) :
      SentenceBreaks (target.text ++ (":=".toList ++ value.text)) (.missing ";") .ending rest
  | leftover {rest : List Char} (d : Sentence) (fits : d.nesting ≤ nestingLimit)
      (more : rest ≠ []) :
      SentenceBreaks d.text .leftover .ending rest

/-! ## A word or a break -/

/-- The text starts with a word that ends, or breaks off where one should stand. -/
def WordOrBreak (text : List Char) : Prop :=
  (∃ (w : Word) (rest : List Char), text = w.text ++ rest ∧ w.Ends rest) ∨
    ∃ consumed rest cause, text = consumed ++ rest ∧ WordBreaks consumed cause rest

theorem wordOrBreak_letter {c : Char} (cs : List Char) (hc : isAlphabetic c) :
    WordOrBreak (c :: cs) := by
  have hothers : ∀ d ∈ cs.takeWhile isNamePart, isAlphanumeric d ∨ d = '_' := by
    intro d hd
    simpa [isNamePart] using List.mem_takeWhile_imp hd
  refine .inl ⟨.name c (cs.takeWhile isNamePart) hc hothers, cs.dropWhile isNamePart, ?_,
    head?_dropWhile cs⟩
  rw [Word.text, List.cons_append, List.takeWhile_append_dropWhile]

theorem wordOrBreak_numeralPart {c : Char} (cs : List Char) (hc : isNumeralPart c) :
    WordOrBreak (c :: cs) := by
  have hparts : ∀ d ∈ (c :: cs).takeWhile isNumeralPart, isNumeralPart d :=
    fun d hd => List.mem_takeWhile_imp hd
  have hsome : (c :: cs).takeWhile isNumeralPart ≠ [] := by simp [hc]
  rw [← List.takeWhile_append_dropWhile (p := isNumeralPart) (l := c :: cs)]
  by_cases hnumeral : IsNumeral ((c :: cs).takeWhile isNumeralPart)
  · exact .inl ⟨.numeral _ hnumeral, _, rfl, head?_dropWhile _⟩
  · exact .inr ⟨[], _, _, rfl, .badNumeral hparts hsome (head?_dropWhile _) hnumeral⟩

theorem wordOrBreak_quote (cs : List Char) : WordOrBreak ('\'' :: cs) := by
  by_cases hcontent : ∀ c ∈ cs.head?, isAlphanumeric c = false
  · exact .inr ⟨['\''], cs, _, rfl, .content hcontent⟩
  · obtain ⟨c, cs, rfl, hc⟩ : ∃ c cs', cs = c :: cs' ∧ isAlphanumeric c := by
      cases cs with
      | nil => simp at hcontent
      | cons c cs => exact ⟨c, cs, rfl, by simpa using hcontent⟩
    by_cases hclosing : cs.head? = some '\''
    · obtain ⟨rest, rfl⟩ := List.head?_eq_some_iff.mp hclosing
      exact .inl ⟨.quoted c hc, rest, rfl, trivial⟩
    · exact .inr ⟨['\'', c], cs, _, rfl, .closing hc hclosing⟩

theorem wordOrBreak (text : List Char) : WordOrBreak text := by
  cases text with
  | nil => exact .inr ⟨[], [], .ended, rfl, .ended⟩
  | cons c cs =>
    by_cases hletter : isAlphabetic c
    · exact wordOrBreak_letter cs hletter
    by_cases hpart : isNumeralPart c
    · exact wordOrBreak_numeralPart cs hpart
    by_cases hquote : c = '\''
    · rw [hquote]
      exact wordOrBreak_quote cs
    · exact .inr ⟨[], c :: cs, .unexpected c, rfl,
        .unexpected (by simpa using hletter) (by simpa using hpart) hquote⟩

/-! ## Completing what is in order -/

/-- The text is the start of a phrase that fits at this depth. -/
def Completes (k : Kind) (depth : Nat) (text : List Char) : Prop :=
  ∃ (p : Phrase k) (more : List Char), p.text = text ++ more ∧ depth + p.nesting ≤ nestingLimit

/-- What stands before a break and is not in order: the bracket or sign that is one too many. -/
def Refused (cause : Cause) (text : List Char) : Prop :=
  (cause ≠ .tooDeep ∧ text = []) ∨
    (cause = .tooDeep ∧ ∃ opening, text = [opening] ∧ (opening = '(' ∨ opening = '-'))

/-- A word that completes any text in want of one. -/
def someWord : Word := .name 'a' [] (by decide) (by simp)

theorem WordBreaks.exists_word {consumed rest : List Char} {cause : Cause}
    (h : WordBreaks consumed cause rest) :
    cause ≠ .tooDeep ∧ ∃ (w : Word) (more : List Char), w.text = consumed ++ more := by
  cases h with
  | ended => exact ⟨by simp, someWord, _, rfl⟩
  | unexpected letter part quote => exact ⟨by simp, someWord, _, rfl⟩
  | badNumeral parts some longest wrong => exact ⟨by simp, someWord, _, rfl⟩
  | content other => exact ⟨by simp, .quoted 'a' (by decide), _, rfl⟩
  | @closing c rest quotable other => exact ⟨by simp, .quoted c quotable, _, rfl⟩

namespace Completes

theorem of_phrase {k : Kind} {depth : Nat} (p : Phrase k)
    (h : depth + p.nesting ≤ nestingLimit) : Completes k depth p.text :=
  ⟨p, [], by simp, h⟩

theorem word {depth : Nat} {text more : List Char} (w : Word) (h : w.text = text ++ more)
    (hdepth : depth ≤ nestingLimit) : Completes .atom depth text :=
  ⟨.word w, more, by rw [Phrase.text, h], by simpa [Phrase.nesting] using hdepth⟩

theorem atom_nil {depth : Nat} (hdepth : depth ≤ nestingLimit) : Completes .atom depth [] :=
  word someWord rfl hdepth

theorem bracketed {depth : Nat} {text : List Char}
    (h : Completes (.chain .sum) (depth + 1) text) : Completes .atom depth ('(' :: text) := by
  obtain ⟨p, more, htext, hnesting⟩ := h
  refine ⟨.bracketed p, more ++ [')'], by simp [Phrase.text, htext], ?_⟩
  rw [Phrase.nesting]
  omega

theorem signed {depth : Nat} {text : List Char} (h : Completes .atom (depth + 1) text) :
    Completes .atom depth ('-' :: text) := by
  obtain ⟨p, more, htext, hnesting⟩ := h
  refine ⟨.signed p, more, by simp [Phrase.text, htext], ?_⟩
  rw [Phrase.nesting]
  omega

theorem first {level : Precedence} {depth : Nat} {text : List Char}
    (h : Completes (operandKind level) depth text) : Completes (.chain level) depth text := by
  obtain ⟨p, more, htext, hnesting⟩ := h
  refine ⟨.chain p .done, more, by simp [Phrase.text, Tail.text, htext], ?_⟩
  simpa [Phrase.nesting, Tail.nesting] using hnesting

theorem sum_nil {depth : Nat} (hdepth : depth ≤ nestingLimit) : Completes (.chain .sum) depth [] :=
  have hproduct : Completes (operandKind .sum) depth [] :=
    first (show Completes (operandKind .product) depth [] from atom_nil hdepth)
  hproduct.first

/-- The value of a statement completes the statement. -/
theorem sentence (target : Word) {text : List Char} (h : Completes (.chain .sum) 0 text) :
    ∃ (d : Sentence) (more : List Char),
      d.text = target.text ++ (":=".toList ++ (text ++ more)) ∧ d.nesting ≤ nestingLimit := by
  obtain ⟨p, more, htext, hnesting⟩ := h
  refine ⟨⟨target, p⟩, more ++ ";".toList, ?_, by simpa [Sentence.nesting] using hnesting⟩
  simp only [Sentence.text, htext, List.append_assoc]

end Completes

/-- A chain with one more operand. -/
def Tail.snoc {level : Precedence} (op : BinaryOperator) (known : op.level = level)
    (right : Phrase (operandKind level)) : Tail level → Tail level
  | .done => .more op known right .done
  | .more op' known' right' rest => .more op' known' right' (rest.snoc op known right)

@[simp] theorem Tail.text_snoc {level : Precedence} {op : BinaryOperator} {known : op.level = level}
    {right : Phrase (operandKind level)} :
    ∀ q : Tail level, (q.snoc op known right).text = q.text ++ op.sign :: right.text
  | .done => by simp [Tail.snoc, Tail.text]
  | .more _ _ _ rest => by simp [Tail.snoc, Tail.text, rest.text_snoc]

@[simp] theorem Tail.nesting_snoc {level : Precedence} {op : BinaryOperator}
    {known : op.level = level} {right : Phrase (operandKind level)} :
    ∀ q : Tail level, (q.snoc op known right).nesting = max q.nesting right.nesting
  | .done => by simp [Tail.snoc, Tail.nesting]
  | .more _ _ _ rest => by simp [Tail.snoc, Tail.nesting, rest.nesting_snoc, max_assoc]

theorem Completes.later {level : Precedence} {depth : Nat} {text : List Char}
    (before : Phrase (.chain level)) (fits : depth + before.nesting ≤ nestingLimit)
    (op : BinaryOperator) (known : op.level = level)
    (h : Completes (operandKind level) depth text) :
    Completes (.chain level) depth (before.text ++ op.sign :: text) := by
  obtain ⟨p, more, htext, hnesting⟩ := h
  cases before with | chain first rest =>
  refine ⟨.chain first (rest.snoc op known p), more, by simp [Phrase.text, htext], ?_⟩
  simp only [Phrase.nesting, Tail.nesting_snoc] at fits ⊢
  omega

/-- What was read before a phrase broke off can be completed, but for what is refused. -/
theorem PhraseBreaks.completes {k : Kind} {depth : Nat} {consumed rest : List Char} {cause : Cause}
    {stage : Stage} (h : PhraseBreaks k depth consumed cause stage rest)
    (hdepth : depth ≤ nestingLimit) :
    ∃ good bad, consumed = good ++ bad ∧ Refused cause bad ∧ Completes k depth good := by
  induction h with
  | word breaks plain =>
    obtain ⟨hcause, w, more, hword⟩ := breaks.exists_word
    exact ⟨_, [], by simp, .inl ⟨hcause, rfl⟩, .word w hword hdepth⟩
  | tooDeep opens full =>
    exact ⟨[], _, rfl, .inr ⟨rfl, _, rfl, opens⟩, .atom_nil hdepth⟩
  | bracketed room inner ih =>
    obtain ⟨good, bad, rfl, hbad, hgood⟩ := ih room
    exact ⟨'(' :: good, bad, rfl, hbad, hgood.bracketed⟩
  | unclosed inner fits ends other =>
    exact ⟨_, [], by simp, .inl ⟨by simp, rfl⟩, (Completes.of_phrase inner fits).bracketed⟩
  | signed room inner ih =>
    obtain ⟨good, bad, rfl, hbad, hgood⟩ := ih room
    exact ⟨'-' :: good, bad, rfl, hbad, hgood.signed⟩
  | first breaks ih =>
    obtain ⟨good, bad, rfl, hbad, hgood⟩ := ih hdepth
    exact ⟨good, bad, rfl, hbad, hgood.first⟩
  | later before fits op known breaks ih =>
    obtain ⟨good, bad, rfl, hbad, hgood⟩ := ih hdepth
    exact ⟨before.text ++ op.sign :: good, bad, by simp, hbad, hgood.later before fits op known⟩

/-- What was read before a statement broke off can be completed, but for what is refused. -/
theorem SentenceBreaks.completes {consumed rest : List Char} {cause : Cause} {stage : Stage}
    (h : SentenceBreaks consumed cause stage rest) :
    ∃ good bad, consumed = good ++ bad ∧ Refused cause bad ∧
      ∃ (d : Sentence) (more : List Char), d.text = good ++ more ∧ d.nesting ≤ nestingLimit := by
  have hvalue : Completes (.chain .sum) 0 [] := .sum_nil (Nat.zero_le _)
  cases h with
  | target breaks =>
    obtain ⟨hcause, w, more, hword⟩ := breaks.exists_word
    obtain ⟨d, more', htext, hnesting⟩ := hvalue.sentence w
    refine ⟨consumed, [], by simp, .inl ⟨hcause, rfl⟩, d, more ++ (":=".toList ++ more'), ?_,
      hnesting⟩
    simp only [htext, hword, List.append_assoc, List.nil_append]
  | assignSign w ends other =>
    obtain ⟨d, more, htext, hnesting⟩ := hvalue.sentence w
    exact ⟨w.text, [], by simp, .inl ⟨by simp, rfl⟩, d, ":=".toList ++ more, htext, hnesting⟩
  | value w breaks =>
    obtain ⟨good, bad, rfl, hbad, hgood⟩ := breaks.completes (Nat.zero_le _)
    obtain ⟨d, more, htext, hnesting⟩ := hgood.sentence w
    refine ⟨w.text ++ (":=".toList ++ good), bad, by simp only [List.append_assoc], hbad, d, more,
      ?_, hnesting⟩
    simp only [htext, List.append_assoc]
  | ending w p fits ends other =>
    obtain ⟨d, more, htext, hnesting⟩ :=
      (Completes.of_phrase p (by simpa using fits)).sentence w
    refine ⟨_, [], (List.append_nil _).symm, .inl ⟨by simp, rfl⟩, d, more, ?_, hnesting⟩
    simp only [htext, List.append_assoc]
  | leftover d fits more =>
    exact ⟨d.text, [], by simp, .inl ⟨by simp, rfl⟩, d, [], by simp, fits⟩

/-! ## More text at the end -/

/-- Too little text was left to tell how the statement breaks off: none at all, the first half of
an assignment sign, or a run of digits and points that could go on. -/
def Pending (cause : Cause) (rest : List Char) : Prop :=
  (rest = [] ∧ cause ≠ .tooDeep) ∨ (rest = [':'] ∧ cause = .missing ":=") ∨
    cause = .badNumeral (String.ofList rest)

/-- Whether a word ends depends on the next character only. -/
theorem Word.Ends.of_head? {w : Word} {rest rest' : List Char} (h : w.Ends rest)
    (hhead : rest'.head? = rest.head?) : w.Ends rest' := by
  cases w with
  | name => exact fun c hc => h c (hhead ▸ hc)
  | numeral => exact fun c hc => h c (hhead ▸ hc)
  | quoted => trivial

mutual

/-- Whether a phrase ends depends on the next character only. -/
theorem Phrase.Ends.of_head? {k : Kind} {rest rest' : List Char}
    (hhead : rest'.head? = rest.head?) :
    ∀ {p : Phrase k}, p.Ends rest → p.Ends rest'
  | .word w, h => Word.Ends.of_head? h hhead
  | .bracketed _, _ => by rw [Phrase.Ends]; trivial
  | .signed inner, h => by
    rw [Phrase.Ends] at h ⊢
    exact Phrase.Ends.of_head? hhead h
  | .chain first more, h => by
    rw [Phrase.Ends] at h ⊢
    have hmore : (more.text ++ rest').head? = (more.text ++ rest).head? := by
      rw [List.head?_append, List.head?_append, hhead]
    exact ⟨Phrase.Ends.of_head? hmore h.1, Tail.Ends.of_head? hhead h.2⟩

theorem Tail.Ends.of_head? {level : Precedence} {rest rest' : List Char}
    (hhead : rest'.head? = rest.head?) : ∀ {q : Tail level}, q.Ends rest → q.Ends rest'
  | .done, h => by
    rw [Tail.Ends] at h ⊢
    rwa [hhead]
  | .more op known right more, h => by
    rw [Tail.Ends] at h ⊢
    have hmore : (more.text ++ rest').head? = (more.text ++ rest).head? := by
      rw [List.head?_append, List.head?_append, hhead]
    exact ⟨Phrase.Ends.of_head? hmore h.1, Tail.Ends.of_head? hhead h.2⟩

end

theorem not_isPrefix_append {token rest : List Char} (h : ¬token <+: rest)
    (hlength : token.length ≤ rest.length) (more : List Char) : ¬token <+: rest ++ more :=
  fun hprefix => h (List.prefix_of_prefix_length_le hprefix (List.prefix_append rest more) hlength)

/-- A text that does not start with the assignment sign may do so only when it is extended from
nothing or from a colon. -/
theorem not_assignSign_isPrefix_append {rest : List Char} (h : ¬":=".toList <+: rest)
    (hnil : rest ≠ []) (hcolon : rest ≠ [':']) (more : List Char) :
    ¬":=".toList <+: rest ++ more := by
  match rest with
  | [] => exact absurd rfl hnil
  | [c] =>
    intro hprefix
    have hc : ':' = c := (List.cons_prefix_cons.mp hprefix).1
    exact hcolon (by rw [hc])
  | c :: d :: tail => exact not_isPrefix_append h (by simp) more

theorem WordBreaks.append {consumed rest : List Char} {cause : Cause}
    (h : WordBreaks consumed cause rest) (hsettled : ¬Pending cause rest) (more : List Char) :
    WordBreaks consumed cause (rest ++ more) := by
  have hne : rest ≠ [] := fun hnil => hsettled (.inl ⟨hnil, h.exists_word.1⟩)
  cases h with
  | ended => exact absurd rfl hne
  | unexpected letter part quote => exact .unexpected letter part quote
  | @badNumeral run rest parts some longest wrong =>
    have hrest : rest ≠ [] := by
      rintro rfl
      exact hsettled (.inr (.inr (by rw [List.append_nil])))
    rw [List.append_assoc]
    exact .badNumeral parts some (by rwa [List.head?_append_of_ne_nil rest hrest]) wrong
  | content other => exact .content (by rwa [List.head?_append_of_ne_nil rest hne])
  | closing quotable other =>
    exact .closing quotable (by rwa [List.head?_append_of_ne_nil rest hne])

/-- A break of this cause does not tell the two texts apart: a level too many is refused whatever
follows it, and other breaks look at what was left only. -/
def Indifferent (cause : Cause) (rest rest' : List Char) : Prop :=
  cause = .tooDeep ∨ ∃ more, rest' = rest ++ more ∧ ¬Pending cause rest

theorem Indifferent.exists_append {cause : Cause} {rest rest' : List Char}
    (h : Indifferent cause rest rest') (hcause : cause ≠ .tooDeep) :
    ∃ more, rest' = rest ++ more ∧ rest ≠ [] ∧ ¬Pending cause rest := by
  obtain htooDeep | ⟨more, hrest, hsettled⟩ := h
  · exact absurd htooDeep hcause
  · exact ⟨more, hrest, fun hnil => hsettled (.inl ⟨hnil, hcause⟩), hsettled⟩

theorem PhraseBreaks.replace {k : Kind} {depth : Nat} {consumed rest rest' : List Char}
    {cause : Cause} {stage : Stage} (h : PhraseBreaks k depth consumed cause stage rest)
    (hsame : Indifferent cause rest rest') : PhraseBreaks k depth consumed cause stage rest' := by
  induction h with
  | @word depth consumed rest cause breaks plain =>
    obtain ⟨more, rfl, hne, hsettled⟩ := hsame.exists_append breaks.exists_word.1
    refine .word (breaks.append hsettled more) ?_
    have hconsumed : consumed ++ rest ≠ [] := List.append_ne_nil_of_right_ne_nil _ hne
    rwa [← List.append_assoc, List.head?_append_of_ne_nil _ hconsumed]
  | tooDeep opens full => exact .tooDeep opens full
  | bracketed room inner ih => exact .bracketed room (ih hsame)
  | @unclosed depth rest inner fits ends other =>
    obtain ⟨more, rfl, hne, -⟩ := hsame.exists_append (by simp)
    refine .unclosed inner fits (ends.of_head? (List.head?_append_of_ne_nil rest hne)) ?_
    exact not_isPrefix_append other (List.length_pos_iff.mpr hne) more
  | signed room inner ih => exact .signed room (ih hsame)
  | first breaks ih => exact .first (ih hsame)
  | later before fits op known breaks ih => exact .later before fits op known (ih hsame)

/-- A statement that breaks off does so in the same way before a text that the break does not tell
apart. -/
theorem SentenceBreaks.replace {consumed rest rest' : List Char} {cause : Cause} {stage : Stage}
    (h : SentenceBreaks consumed cause stage rest) (hsame : Indifferent cause rest rest') :
    SentenceBreaks consumed cause stage rest' := by
  cases h with
  | target breaks =>
    obtain ⟨more, rfl, -, hsettled⟩ := hsame.exists_append breaks.exists_word.1
    exact .target (breaks.append hsettled more)
  | assignSign w ends other =>
    obtain ⟨more, rfl, hne, hsettled⟩ := hsame.exists_append (by simp)
    have hcolon : rest ≠ [':'] := fun hcolon => hsettled (.inr (.inl ⟨hcolon, rfl⟩))
    exact .assignSign w (ends.of_head? (List.head?_append_of_ne_nil rest hne))
      (not_assignSign_isPrefix_append other hne hcolon more)
  | value w breaks => exact .value w (breaks.replace hsame)
  | ending w p fits ends other =>
    obtain ⟨more, rfl, hne, -⟩ := hsame.exists_append (by simp)
    exact .ending w p fits (ends.of_head? (List.head?_append_of_ne_nil rest hne))
      (not_isPrefix_append other (List.length_pos_iff.mpr hne) more)
  | leftover d fits hmore =>
    obtain ⟨more, rfl, hne, -⟩ := hsame.exists_append (by simp)
    exact .leftover d fits (List.append_ne_nil_of_left_ne_nil hne more)

end ThreeAddress.Grammar
