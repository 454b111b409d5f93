import ThreeAddress.CommandLine.Diagnostic
import ThreeAddress.Proofs.Failures

/-!
# The line under a failing statement

A statement that cannot be read is shown with a line under it: blanks below the characters before
the failing one, then marks, then the message. Blanks are counted in characters, so the first mark
stands below the failing character in every text. Marks are counted in bytes. A failing character of
several bytes has as many marks, and all but the first stand below what follows it. The line marks
the failing character and nothing else exactly when that character is a single byte, or there is
none.
-/
namespace ThreeAddress.CommandLine
open Statement Text

/-- The line with so many blanks and marks before the message. -/
def markLine (blanks marks : Nat) (message : String) : String :=
  "| " ++ String.ofList (List.replicate blanks ' ') ++ String.ofList (List.replicate marks '^') ++
    "--- " ++ message ++ "\n"

@[simp] theorem length_markLine (blanks marks : Nat) (message : String) :
    (markLine blanks marks message).length = 7 + blanks + marks + message.length := by
  have hopening : "| ".length = 2 := rfl
  have hdashes : "--- ".length = 4 := rfl
  have hend : "\n".length = 1 := rfl
  simp only [markLine, String.length_append, String.length_ofList, List.length_replicate]
  omega

/-- The column of a failure counts the characters before its place, and its start their bytes. It is
never the position that stands in for them. -/
theorem exists_column_of_parse {source : String} {f : Failure} (h : parse source = .error f) :
    ∃ before : String, source = before ++ f.remainder ∧ f.start = before.utf8ByteSize ∧
      f.column source = before.length := by
  obtain ⟨consumed, rest, htext, -, hcursor⟩ := parse_eq_error_iff.mp h
  have hrest : f.cursor.remainder = rest := by
    rw [hcursor, Cursor.remainder, htext, dropBytes_byteLength_append]
  refine ⟨String.ofList consumed, ?_, ?_, ?_⟩
  · rw [Failure.remainder, hrest, ← String.ofList_append, ← htext, String.ofList_toList]
  · rw [Failure.start, hcursor, byteLength_eq_utf8ByteSize]
  · have hbefore : takeBytes? f.start source.toList = some consumed := by
      rw [Failure.start, hcursor, htext, takeBytes?_byteLength_append]
    rw [Failure.column, hbefore, String.length_ofList]

theorem text_underlined (verbosity : Verbosity) (source : String) (f : Failure) :
    Diagnostic.text verbosity (.underlined source f) =
      "| " ++ source ++ "\n" ++ markLine (f.column source) f.length f.message := by
  have hbreak : "\n| " = "\n" ++ "| " := rfl
  unfold Diagnostic.text
  simp only [markLine, hbreak, String.append_assoc]

/-- The text shown for a failure has blanks below the characters before the failing one, and a
single mark below that one. -/
def MarksFailingCharacter (source : String) (f : Failure) (shown : String) : Prop :=
  ∃ before : String, source = before ++ f.remainder ∧ f.start = before.utf8ByteSize ∧
    shown = "| " ++ source ++ "\n" ++ markLine before.length 1 f.message

theorem length_eq_elim (f : Failure) :
    f.length = f.remainder.toList.head?.elim 1 Char.utf8Size := by
  rw [Failure.length, Failure.remainder, String.toList_ofList]
  cases f.cursor.remainder with
  | nil => rfl
  | cons c cs => rfl

theorem length_eq_one_iff (f : Failure) :
    f.length = 1 ↔ ∀ c ∈ f.remainder.toList.head?, c.val ≤ 127 := by
  rw [length_eq_elim]
  cases f.remainder.toList.head? with
  | none => simp
  | some c => simp [Char.utf8Size_eq_one_iff]

/-- What is shown marks the failing character alone exactly when it is a single byte or missing. -/
theorem marksFailingCharacter_iff {source : String} {f : Failure} (h : parse source = .error f)
    (verbosity : Verbosity) :
    MarksFailingCharacter source f (Diagnostic.text verbosity (.underlined source f)) ↔
      ∀ c ∈ f.remainder.toList.head?, c.val ≤ 127 := by
  obtain ⟨before, hsource, hstart, hcolumn⟩ := exists_column_of_parse h
  rw [text_underlined, hcolumn, ← length_eq_one_iff]
  constructor
  · rintro ⟨before', hsource', -, hshown⟩
    have hblanks : before'.length = before.length := by
      have hlength := congrArg String.length (hsource.symm.trans hsource')
      simp only [String.length_append] at hlength
      omega
    have hlength := congrArg String.length hshown
    simp only [String.length_append, length_markLine] at hlength
    omega
  · intro hone
    exact ⟨before, hsource, hstart, by rw [hone]⟩

/-- The line under a statement that cannot be read has a blank for each character before the failing
one and a mark for each byte of that one, or a single mark at the end of the text. So it marks the
failing character and nothing else exactly when that character is a single byte or missing. -/
theorem underlined_marks_bytes {source : String} {f : Failure} (h : parse source = .error f)
    (verbosity : Verbosity) :
    (∃ before : String, source = before ++ f.remainder ∧ f.start = before.utf8ByteSize ∧
      Diagnostic.text verbosity (.underlined source f) =
        "| " ++ source ++ "\n" ++ markLine before.length
          (f.remainder.toList.head?.elim 1 Char.utf8Size) f.message) ∧
    (MarksFailingCharacter source f (Diagnostic.text verbosity (.underlined source f)) ↔
      ∀ c ∈ f.remainder.toList.head?, c.val ≤ 127) := by
  refine ⟨?_, marksFailingCharacter_iff h verbosity⟩
  obtain ⟨before, hsource, hstart, hcolumn⟩ := exists_column_of_parse h
  exact ⟨before, hsource, hstart, by rw [text_underlined, hcolumn, length_eq_elim]⟩

/-- A character of two bytes before the failing one, which is one byte: one mark, below it. -/
theorem underlined_marks_bytes_bracket :
    let f : Failure := ⟨.missing ")", .closingBracket, "ä:=(b]".toList, 6, "]".toList⟩
    parse "ä:=(b]" = .error f ∧
      MarksFailingCharacter "ä:=(b]" f (Diagnostic.text {} (.underlined "ä:=(b]" f)) := by
  intro f
  have h : parse "ä:=(b]" = .error f := by decide +kernel
  have hhead : f.remainder.toList.head? = some ']' := by decide +kernel
  have hsingle : ∀ c ∈ f.remainder.toList.head?, c.val ≤ 127 := by
    rw [hhead]
    intro c hc
    obtain rfl := Option.some.inj hc
    decide
  exact ⟨h, (underlined_marks_bytes h {}).2.mpr hsingle⟩

/-- A failing character of three bytes has three marks. -/
theorem not_marksFailingCharacter_euro :
    let f : Failure := ⟨.unexpected '€', .operand, "a:=€;".toList, 3, "€;".toList⟩
    parse "a:=€;" = .error f ∧ Diagnostic.text {} (.underlined "a:=€;" f) =
      "| a:=€;\n|    ^^^--- unexpected character '€' when parsing an operand, remaining input: '€;'\n" ∧
      ¬MarksFailingCharacter "a:=€;" f (Diagnostic.text {} (.underlined "a:=€;" f)) := by
  intro f
  have h : parse "a:=€;" = .error f := by decide +kernel
  refine ⟨h, by decide +kernel, ?_⟩
  rw [marksFailingCharacter_iff h]
  intro hsingle
  have heuro : '€'.val ≤ 127 := hsingle '€' (by decide +kernel)
  exact absurd heuro (by decide)

end ThreeAddress.CommandLine
