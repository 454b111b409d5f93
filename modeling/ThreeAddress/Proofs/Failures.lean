import ThreeAddress.Proofs.Rejection

/-!
# What a failure tells

Reading fails exactly as the text breaks off, so a failure can be read as a report on its text. It
stands at the end of what could still become a statement; it is final as soon as enough text was
left to tell; and its cause fits the text on both sides of its place. No statement is the start of
another, since what follows a whole statement is refused.
-/
namespace ThreeAddress.Statement
open Text Grammar

/-! ## Failures and breaks -/

/-- A failure splits the text in two where it breaks off, and its start counts the bytes before. -/
theorem exists_breaks_of_parse {source : String} {f : Failure} (h : parse source = .error f) :
    ∃ before : String, source = before ++ f.remainder ∧ f.start = before.utf8ByteSize ∧
      SentenceBreaks before.toList f.cause f.stage f.remainder.toList := by
  obtain ⟨consumed, rest, htext, hbreaks, hcursor⟩ := parse_eq_error_iff.mp h
  have hremainder : f.remainder = String.ofList rest := by
    rw [Failure.remainder, hcursor, Cursor.remainder, htext, dropBytes_byteLength_append]
  refine ⟨String.ofList consumed, ?_, ?_, ?_⟩
  · rw [hremainder, ← String.ofList_append, ← htext, String.ofList_toList]
  · rw [Failure.start, hcursor, byteLength_eq_utf8ByteSize]
  · rwa [hremainder, String.toList_ofList, String.toList_ofList]

/-- A text that breaks off gives the failure at its break. -/
theorem exists_failure_of_breaks {before rest : String} {cause : Cause} {stage : Stage}
    (h : SentenceBreaks before.toList cause stage rest.toList) :
    ∃ f, parse (before ++ rest) = .error f ∧ f.cause = cause ∧ f.stage = stage ∧
      f.start = before.utf8ByteSize ∧ f.remainder = rest := by
  have htext : (before ++ rest).toList = before.toList ++ rest.toList := String.toList_append
  refine ⟨⟨cause, stage, (before ++ rest).toList, byteLength before.toList, rest.toList⟩,
    parse_eq_error_iff.mpr ⟨_, _, htext, h, rfl⟩, rfl, rfl, ?_, ?_⟩
  · rw [Failure.start, byteLength_eq_utf8ByteSize, String.ofList_toList]
  · rw [Failure.remainder, Cursor.remainder, htext, dropBytes_byteLength_append,
      String.ofList_toList]

theorem exists_parse_of_sentence {before : String} {more : List Char} (d : Sentence)
    (htext : d.text = before.toList ++ more) (hnesting : d.nesting ≤ nestingLimit) :
    ∃ more l, parse (before ++ more) = .ok l := by
  refine ⟨String.ofList more, d.assignment.listing, parse_eq_ok_iff.mpr ⟨d, ?_, hnesting, rfl⟩⟩
  rw [htext, String.toList_append, String.toList_ofList]

/-! ## Viable texts -/

/-- What was refused for its nesting is refused whatever follows. -/
theorem parse_append_ne_ok {before rest : String} {stage : Stage}
    (h : SentenceBreaks before.toList .tooDeep stage rest.toList) (more : String) (l : Listing) :
    parse (before ++ more) ≠ .ok l := by
  have hbreaks : SentenceBreaks before.toList .tooDeep stage more.toList := h.replace (.inl rfl)
  obtain ⟨f, hparse, -⟩ := exists_failure_of_breaks hbreaks
  rw [hparse]
  simp

/-- Reading fails where the text before can still become a statement. Only a bracket or a sign that
nests too deep is behind the place of its failure: without it the text can become a statement, with
it no longer. -/
theorem failure_ends_viable_text {source : String} {f : Failure} (h : parse source = .error f) :
    ∃ before : String, source = before ++ f.remainder ∧ f.start = before.utf8ByteSize ∧
      (f.cause ≠ .tooDeep → ∃ more l, parse (before ++ more) = .ok l) ∧
      (f.cause = .tooDeep → ∃ (kept : String) (last : Char), before = kept.push last ∧
        (last = '(' ∨ last = '-') ∧ (∃ more l, parse (kept ++ more) = .ok l) ∧
        ∀ more l, parse (before ++ more) ≠ .ok l) := by
  obtain ⟨before, hsource, hstart, hbreaks⟩ := exists_breaks_of_parse h
  obtain ⟨good, bad, hbefore, hbad, d, more, htext, hnesting⟩ := hbreaks.completes
  refine ⟨before, hsource, hstart, fun hcause => ?_, fun hcause => ?_⟩
  · obtain ⟨-, rfl⟩ | ⟨htooDeep, -⟩ := hbad
    · rw [List.append_nil] at hbefore
      exact exists_parse_of_sentence d (hbefore ▸ htext) hnesting
    · exact absurd htooDeep hcause
  · obtain ⟨hother, -⟩ | ⟨-, last, rfl, hlast⟩ := hbad
    · exact absurd hcause hother
    refine ⟨String.ofList good, last, ?_, hlast, ?_, parse_append_ne_ok (hcause ▸ hbreaks)⟩
    · apply String.toList_inj.mp
      rw [String.toList_push, String.toList_ofList, hbefore]
    · exact exists_parse_of_sentence d (by rw [htext, String.toList_ofList]) hnesting

/-- One bracket too many after as many changes of sign as may nest. -/
theorem failure_ends_viable_text_deep :
    let text := "a:=".toList ++ (List.replicate 256 '-' ++ "(b);".toList)
    let f : Failure := ⟨.tooDeep, .operand, text, 260, "b);".toList⟩
    parse (String.ofList text) = .error f ∧
      ∃ before : String, String.ofList text = before ++ f.remainder ∧
        f.start = before.utf8ByteSize ∧
        (f.cause ≠ .tooDeep → ∃ more l, parse (before ++ more) = .ok l) ∧
        (f.cause = .tooDeep → ∃ (kept : String) (last : Char), before = kept.push last ∧
          (last = '(' ∨ last = '-') ∧ (∃ more l, parse (kept ++ more) = .ok l) ∧
          ∀ more l, parse (before ++ more) ≠ .ok l) := by
  intro text f
  have h : parse (String.ofList text) = .error f := by
    -- The text is kept apart while the string is taken off, since decoding it again is slow.
    obtain ⟨cs, hcs⟩ : ∃ cs, text = cs := ⟨text, rfl⟩
    rw [hcs]
    unfold parse parseTraced
    rw [String.toList_ofList, ← hcs]
    decide +kernel
  exact ⟨h, failure_ends_viable_text h⟩

/-! ## Final failures -/

namespace Failure

/-- More text could change the failure: no text was left, and the nesting was not to blame; the
first half of an assignment sign was left; or a run of digits and points to the end of the text
was. -/
def MayChange (f : Failure) : Prop :=
  (f.remainder = "" ∧ f.cause ≠ .tooDeep) ∨ (f.remainder = ":" ∧ f.cause = .missing ":=") ∨
    f.cause = .badNumeral f.remainder

instance (f : Failure) : Decidable f.MayChange :=
  inferInstanceAs (Decidable (_ ∨ _ ∨ _))

theorem mayChange_of_pending {f : Failure} (h : Pending f.cause f.remainder.toList) :
    f.MayChange := by
  obtain ⟨hnil, hcause⟩ | ⟨hcolon, hcause⟩ | hcause := h
  · exact .inl ⟨String.toList_eq_nil_iff.mp hnil, hcause⟩
  · exact .inr (.inl ⟨String.toList_inj.mp hcolon, hcause⟩)
  · exact .inr (.inr (by rwa [String.ofList_toList] at hcause))

end Failure

/-- A whole statement is no start of another, and a failure stays as it is when more text follows,
unless too little text was left to tell. -/
theorem first_failure_is_final (source more : String) :
    (∀ l, parse source = .ok l → more ≠ "" →
      ∃ f, parse (source ++ more) = .error f ∧ f.cause = .leftover ∧ f.stage = .ending ∧
        f.start = source.utf8ByteSize ∧ f.remainder = more) ∧
    ∀ f, parse source = .error f → ¬f.MayChange →
      ∃ g, parse (source ++ more) = .error g ∧ g.cause = f.cause ∧ g.stage = f.stage ∧
        g.start = f.start ∧ g.remainder = f.remainder ++ more := by
  constructor
  · intro l hparse hmore
    obtain ⟨d, htext, hnesting, -⟩ := parse_eq_ok_iff.mp hparse
    have hbreaks : SentenceBreaks source.toList .leftover .ending more.toList :=
      htext ▸ .leftover d hnesting fun hnil => hmore (String.toList_eq_nil_iff.mp hnil)
    exact exists_failure_of_breaks hbreaks
  · intro f hparse hfinal
    obtain ⟨before, hsource, hstart, hbreaks⟩ := exists_breaks_of_parse hparse
    have hmore : SentenceBreaks before.toList f.cause f.stage (f.remainder ++ more).toList :=
      hbreaks.replace (.inr ⟨more.toList, String.toList_append,
        fun hpending => hfinal (Failure.mayChange_of_pending hpending)⟩)
    obtain ⟨g, hg, hcause, hstage, hstart', hremainder⟩ := exists_failure_of_breaks hmore
    refine ⟨g, ?_, hcause, hstage, hstart'.trans hstart.symm, hremainder⟩
    rw [← hg, ← String.append_assoc, ← hsource]

theorem first_failure_is_final_unclosed :
    let f : Failure := ⟨.missing ")", .closingBracket, "ä:=(1.5]".toList, 8, "]".toList⟩
    ((∃ l, parse "ä:=1.5;" = .ok l) ∧
      ∃ f, parse ("ä:=1.5;" ++ "]") = .error f ∧ f.cause = .leftover ∧ f.stage = .ending ∧
        f.start = "ä:=1.5;".utf8ByteSize ∧ f.remainder = "]") ∧
    (parse "ä:=(1.5]" = .error f ∧ ¬f.MayChange) ∧
      ∃ g, parse ("ä:=(1.5]" ++ ");") = .error g ∧ g.cause = f.cause ∧ g.stage = f.stage ∧
        g.start = f.start ∧ g.remainder = f.remainder ++ ");" := by
  intro f
  let l : Listing := ⟨#[⟨1, .assign, .identifier "ä", .number ⟨0x3FF8000000000000⟩, none⟩]⟩
  have hok : parse "ä:=1.5;" = .ok l := by decide +kernel
  have herror : parse "ä:=(1.5]" = .error f := by decide +kernel
  have hfinal : ¬f.MayChange := by decide +kernel
  exact ⟨⟨⟨l, hok⟩, (first_failure_is_final _ "]").1 l hok (by decide)⟩, ⟨herror, hfinal⟩,
    (first_failure_is_final _ ");").2 f herror hfinal⟩

/-! ## Causes -/

/-- The cause fits what stands before the break, the stage and what follows. -/
def Cause.Fits (before : List Char) (stage : Stage) (rest : List Char) : Cause → Prop
  | .ended => rest = []
  | .unexpected c => rest.head? = some c ∧ isAlphabetic c = false ∧ c.isDigit = false ∧ c ≠ '.' ∧
      c ≠ '\'' ∧ (stage = .operand → c ≠ '(' ∧ c ≠ '-')
  | .missing token => ¬token.toList <+: rest
  /- The longest run of digits and points that comes next is no numeral. -/
  | .badNumeral numeral =>
      (∀ c ∈ numeral.toList, c.isDigit ∨ c = '.') ∧
        (∃ after, rest = numeral.toList ++ after ∧ ∀ c ∈ after.head?, ¬(c.isDigit ∨ c = '.')) ∧
        ((∀ c ∈ numeral.toList, ¬c.isDigit) ∨ 1 < numeral.toList.count '.')
  | .badQuote .content => ['\''] <:+ before
  | .badQuote .closing => ∃ c, isAlphanumeric c ∧ ['\'', c] <:+ before
  | .leftover => rest ≠ [] ∧ ∃ l, parse (String.ofList before) = .ok l
  | .tooDeep => True

theorem isNumeralPart_iff {c : Char} : isNumeralPart c = true ↔ c.isDigit ∨ c = '.' := by
  simp [isNumeralPart]

/-- A break where a word should stand fits, whatever comes before the word. -/
theorem fits_of_wordBreaks {inner rest : List Char} {cause : Cause}
    (h : WordBreaks inner cause rest) (before : List Char) {stage : Stage}
    (plain : stage = .operand → ∀ c ∈ (inner ++ rest).head?, c ≠ '(' ∧ c ≠ '-') :
    cause.Fits (before ++ inner) stage rest := by
  cases h with
  | ended => rfl
  | @unexpected c rest letter part quote =>
    have hpart : ¬(c.isDigit ∨ c = '.') := by rw [← isNumeralPart_iff, part]; simp
    exact ⟨rfl, letter, by simpa using (not_or.mp hpart).1, (not_or.mp hpart).2, quote,
      fun hstage => plain hstage c rfl⟩
  | @badNumeral run rest parts some longest wrong =>
    simp only [Cause.Fits, String.toList_ofList]
    have hparts : ∀ c ∈ run, c.isDigit ∨ c = '.' := fun c hc => isNumeralPart_iff.mp (parts c hc)
    refine ⟨hparts, ⟨rest, rfl, fun c hc => ?_⟩, ?_⟩
    · rw [← isNumeralPart_iff, longest c hc]
      simp
    · by_contra hnumeral
      obtain ⟨hdigit, hpoint⟩ := not_or.mp hnumeral
      exact wrong ⟨hparts, by simpa using hdigit, by omega⟩
  | content other => exact List.suffix_append before _
  | @closing c rest quotable other => exact ⟨c, quotable, List.suffix_append before _⟩

/-- A phrase breaks off where a word should stand, where a closing bracket should, or at a level too
many. -/
theorem Cause.fits_of_phraseBreaks {k : Kind} {depth : Nat} {consumed rest : List Char}
    {cause : Cause} {stage : Stage} (h : PhraseBreaks k depth consumed cause stage rest)
    (before : List Char) : cause.Fits (before ++ consumed) stage rest := by
  induction h generalizing before with
  | word breaks plain => exact fits_of_wordBreaks breaks before fun _ => plain
  | tooDeep opens full => trivial
  | @bracketed depth consumed _ _ _ room inner ih =>
    have hfits := ih (before ++ ['('])
    rwa [List.append_assoc] at hfits
  | unclosed inner fits ends other => exact other
  | @signed depth consumed _ _ _ room inner ih =>
    have hfits := ih (before ++ ['-'])
    rwa [List.append_assoc] at hfits
  | first breaks ih => exact ih before
  | @later level depth consumed _ _ _ p fits op known breaks ih =>
    have hfits := ih (before ++ (p.text ++ [op.sign]))
    simpa using hfits

theorem Cause.fits_of_sentenceBreaks {consumed rest : List Char} {cause : Cause} {stage : Stage}
    (h : SentenceBreaks consumed cause stage rest) : cause.Fits consumed stage rest := by
  cases h with
  | target breaks => exact fits_of_wordBreaks breaks [] fun hstage => by cases hstage
  | assignSign w ends other => exact other
  | @value consumed _ _ _ w breaks =>
    have hfits := fits_of_phraseBreaks breaks (w.text ++ ":=".toList)
    rwa [List.append_assoc] at hfits
  | ending w p fits ends other => exact other
  | leftover d fits more =>
    refine ⟨more, d.assignment.listing, parse_eq_ok_iff.mpr ⟨d, ?_, fits, rfl⟩⟩
    rw [String.toList_ofList]

/-- A failure splits its text in what was read and what was not, marks the first character of the
latter, and gives a cause that fits. -/
theorem failure_is_coherent {source : String} {f : Failure} (h : parse source = .error f) :
    ∃ before : String, source = before ++ f.remainder ∧ f.start = before.utf8ByteSize ∧
      f.stop - f.start = f.remainder.toList.head?.elim 1 Char.utf8Size ∧
      f.cause.Fits before.toList f.stage f.remainder.toList := by
  obtain ⟨before, hsource, hstart, hbreaks⟩ := exists_breaks_of_parse h
  refine ⟨before, hsource, hstart, ?_, Cause.fits_of_sentenceBreaks hbreaks⟩
  rw [Failure.stop, Nat.add_sub_cancel_left, Failure.length, Failure.remainder,
    String.toList_ofList]
  cases f.cursor.remainder with
  | nil => rfl
  | cons c cs => rfl

theorem failure_is_coherent_points :
    let f : Failure := ⟨.badNumeral "1..", .operand, "é:=(ß+1..);".toList, 8, "1..);".toList⟩
    parse "é:=(ß+1..);" = .error f ∧
      ∃ before : String, "é:=(ß+1..);" = before ++ f.remainder ∧ f.start = before.utf8ByteSize ∧
        f.stop - f.start = f.remainder.toList.head?.elim 1 Char.utf8Size ∧
        f.cause.Fits before.toList f.stage f.remainder.toList := by
  intro f
  have h : parse "é:=(ß+1..);" = .error f := by decide +kernel
  exact ⟨h, failure_is_coherent h⟩

end ThreeAddress.Statement
