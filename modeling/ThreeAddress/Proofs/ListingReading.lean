import Mathlib.Data.List.Forall2
import ThreeAddress.Proofs.Faithfulness

/-!
# Reading listings back

The text of a listing shows everything of it but the kinds of terms: a name, a number and a quoted
character can have the same text. Operands are written with blanks inside, and a minus sign stands
for a change of sign as well as for an operator. Still there is one way only to read a listing,
because terms are written without blanks, brackets and signs. A temporary starts with a sign of its
own, so does a change of sign, and neither can start a term; a blank ends the left operand of a
line and a bracket the right one. Each part of a line can be told from what follows it in this way,
and so can a line.
-/
namespace ThreeAddress

open Grammar Statement Text

/-! ## The texts of numbers -/

namespace Binary64

theorem isNumeral_placePoint {digits : List Char} {fraction : Nat} (h : ∀ c ∈ digits, c.isDigit) :
    IsNumeral (placePoint digits fraction) := by
  have hpadded : ∀ c ∈ List.replicate (fraction + 1 - digits.length) '0' ++ digits, c.isDigit := by
    intro c hc
    rcases List.mem_append.mp hc with hc | hc
    · rw [(List.mem_replicate.mp hc).2]
      decide
    · exact h c hc
  apply isNumeral_of_point
  · left
    apply List.ne_nil_of_length_pos
    simp only [List.length_take, List.length_append, List.length_replicate]
    omega
  · intro c hc
    exact hpadded c (List.mem_of_mem_take hc)
  · intro c hc
    exact hpadded c (List.mem_of_mem_drop hc)

/-- Digits that are filled up to the point, or cut by it, are a numeral. -/
theorem isNumeral_positional (n power places : Nat) :
    IsNumeral (if places ≤ power then Nat.toDigits 10 n ++ List.replicate (power - places) '0'
      else placePoint (Nat.toDigits 10 n) (places - power)) := by
  by_cases hwhole : places ≤ power
  · rw [if_pos hwhole]
    apply isNumeral_of_digits
    · exact List.append_ne_nil_of_left_ne_nil Nat.toDigits_ne_nil _
    · intro c hc
      rcases List.mem_append.mp hc with hc | hc
      · exact isDigit_of_mem_toDigits c hc
      · rw [(List.mem_replicate.mp hc).2]
        decide
  · rw [if_neg hwhole]
    exact isNumeral_placePoint isDigit_of_mem_toDigits

theorem isNumeral_magnitudeText (x : Binary64) : IsNumeral x.magnitudeText := by
  rw [magnitudeText]
  by_cases hzero : x.magnitude = 0
  · rw [if_pos hzero]
    exact isNumeral_of_digits (List.cons_ne_nil _ _) (List.all_eq_true.mp rfl)
  · -- The digits are not computed here: any digits with any power of ten will do.
    rw [if_neg hzero]
    generalize x.shortest = digits
    obtain ⟨n, power⟩ := digits
    exact isNumeral_positional n power _

/-- A number that is neither negative nor beyond infinity is written with digits and at most one
point, or as `inf`. -/
theorem Plain.text_eq {x : Binary64} (h : x.Plain) :
    x.text = "inf" ∨ IsNumeral x.text.toList := by
  have hsign : x.isNegative = false := by
    have hbound : infinite < Nat.pow 2 63 := by decide
    exact decide_eq_false (Nat.not_le.mpr (Nat.lt_of_le_of_lt h hbound))
  by_cases hinf : x.isInfinite
  · left
    simp [text, h.isNaN_eq, hsign, hinf]
  · right
    simpa [text, h.isNaN_eq, hsign, hinf] using x.isNumeral_magnitudeText

end Binary64

/-! ## The texts of operands -/

/-- A character that the text of a term can have: of a name, of a numeral, or quoted. -/
def isTermPart (c : Char) : Bool := isNamePart c || c == '.'

theorem isTermPart_of_isNamePart {c : Char} (h : isNamePart c) : isTermPart c := by
  simp [isTermPart, h]

theorem isTermPart_of_isDigit {c : Char} (h : c.isDigit) : isTermPart c := by
  obtain ⟨hlow, hhigh⟩ := Char.isDigit_iff_toNat.mp h
  -- The ten digits are the first range of the table of numbers.
  have hnumeric : isNumeric c = true :=
    (if_neg (Nat.not_lt.mpr hlow)).trans (if_pos hhigh)
  exact isTermPart_of_isNamePart (by simp [isNamePart, isAlphanumeric, hnumeric])

/-- A run of characters of terms. -/
structure IsTermText (cs : List Char) : Prop where
  ne_nil : cs ≠ []
  parts : ∀ c ∈ cs, isTermPart c

theorem isTermText_of_isNumeral {cs : List Char} (h : IsNumeral cs) : IsTermText cs := by
  obtain ⟨d, hd, -⟩ := h.digit
  refine ⟨List.ne_nil_of_mem hd, fun c hc => ?_⟩
  rcases h.parts c hc with hdigit | rfl
  · exact isTermPart_of_isDigit hdigit
  · rfl

/-- A term is written without blanks, brackets and signs. -/
theorem Grammar.Word.isTermText (w : Word) : IsTermText w.term.operand.text.toList := by
  cases w with
  | name first others hs hg =>
    show IsTermText (String.ofList (first :: others)).toList
    rw [String.toList_ofList]
    refine ⟨List.cons_ne_nil _ _, fun c hc => ?_⟩
    exact isTermPart_of_isNamePart (Word.isNamePart_of_mem_name hs hg c hc)
  | numeral digits h =>
    have hplain := (Word.numeral digits h).plain_term
    rcases Binary64.Plain.text_eq hplain with hinf | hnumeral
    · show IsTermText (Binary64.text _).toList
      rw [hinf]
      exact ⟨by decide, List.all_eq_true.mp (by decide)⟩
    · exact isTermText_of_isNumeral hnumeral
  | quoted c hc =>
    show IsTermText (String.singleton c).toList
    rw [String.toList_singleton]
    refine ⟨List.cons_ne_nil _ _, fun d hd => ?_⟩
    rw [List.mem_singleton.mp hd]
    exact isTermPart_of_isNamePart (by simp [isNamePart, hc])

/-- Two operands that are written alike: the same temporary, or two terms with the same text, and as
many changes of sign around either. -/
inductive Operand.Alike : Operand → Operand → Prop where
  | temporary (id : Nat) : Alike (.temporary id) (.temporary id)
  | terms (s t : Term) (same : s.operand.text = t.operand.text) : Alike s.operand t.operand
  | negated {x y : Operand} (inner : Alike x y) : Alike (.negated x) (.negated y)

theorem Operand.Alike.text_eq {x y : Operand} (h : x.Alike y) : x.text = y.text := by
  induction h with
  | temporary id => rfl
  | terms s t same => exact same
  | negated _ ih => rw [text, text, ih]

/-- The text does not go on with a term or with the digits of a temporary. -/
def EndsTerm (rest : List Char) : Prop := ∀ c ∈ rest.head?, isTermPart c = false

theorem EndsTerm.not_isDigit {rest : List Char} (h : EndsTerm rest) :
    ∀ c ∈ rest.head?, c.isDigit = false := by
  intro c hc
  rw [Bool.eq_false_iff]
  intro hdigit
  have hpart := isTermPart_of_isDigit hdigit
  rw [h c hc] at hpart
  cases hpart

namespace Operand

theorem toList_text_temporary (id : Nat) :
    (temporary id).text.toList = '^' :: Nat.toDigits 10 id := by
  simp [text, temporaryText]

theorem toList_text_negated (x : Operand) :
    (negated x).text.toList = '-' :: ' ' :: x.text.toList := by
  simp [text]

/-- A term is written with neither of the characters that start all other operands. -/
theorem text_term_append_ne {w : Word} {c : Char} (hc : isTermPart c = false)
    {rest text : List Char} : w.term.operand.text.toList ++ rest ≠ c :: text := by
  intro h
  have hterm := w.isTermText
  obtain ⟨d, ds, hd⟩ := List.exists_cons_of_ne_nil hterm.ne_nil
  rw [hd, List.cons_append] at h
  have hpart := hterm.parts d (hd ▸ List.mem_cons_self)
  rw [(List.cons.inj h).1, hc] at hpart
  cases hpart

/-- An operand can be told from what follows it in one way only, up to the kinds of terms. -/
theorem text_unique {x y : Operand} (hx : x.Read) (hy : y.Read) {rest rest' : List Char}
    (hrest : EndsTerm rest) (hrest' : EndsTerm rest')
    (h : x.text.toList ++ rest = y.text.toList ++ rest') : x.Alike y ∧ rest = rest' := by
  induction hx generalizing y with
  | word v =>
    cases hy with
    | word w =>
      obtain ⟨htext, hfollows⟩ :=
        run_unique h v.isTermText.parts w.isTermText.parts hrest hrest'
      exact ⟨.terms _ _ (String.toList_inj.mp htext), hfollows⟩
    | temporary id =>
      rw [toList_text_temporary] at h
      exact absurd h (text_term_append_ne (by decide))
    | negated inner =>
      rw [toList_text_negated] at h
      exact absurd h (text_term_append_ne (by decide))
  | temporary id =>
    cases hy with
    | word w =>
      rw [toList_text_temporary] at h
      exact absurd h.symm (text_term_append_ne (by decide))
    | temporary id' =>
      rw [toList_text_temporary, toList_text_temporary] at h
      obtain ⟨rfl, hfollows⟩ := toDigits_unique (List.cons.inj h).2 hrest.not_isDigit
        hrest'.not_isDigit
      exact ⟨.temporary id, hfollows⟩
    | negated inner =>
      rw [toList_text_temporary, toList_text_negated] at h
      exact absurd (List.cons.inj h).1 (by decide)
  | @negated x inner ih =>
    cases hy with
    | word w =>
      rw [toList_text_negated] at h
      exact absurd h.symm (text_term_append_ne (by decide))
    | temporary id =>
      rw [toList_text_temporary, toList_text_negated] at h
      exact absurd (List.cons.inj h).1 (by decide)
    | negated inner' =>
      rw [toList_text_negated, toList_text_negated] at h
      obtain ⟨halike, hfollows⟩ := ih inner' (List.cons.inj (List.cons.inj h).2).2
      exact ⟨.negated halike, hfollows⟩

end Operand

/-! ## Lines -/

/-- Symbols are told apart by themselves, but for the two uses of the minus sign. -/
theorem Operator.symbol_unique {a b : Operator} (ha : a ≠ .negate) (hb : b ≠ .negate)
    {rest rest' : List Char}
    (h : a.symbol.toList ++ ' ' :: rest = b.symbol.toList ++ ' ' :: rest') :
    a = b ∧ rest = rest' := by
  have hsymbol : ∀ op : Operator, ∀ c ∈ op.symbol.toList, (c != ' ') = true := by
    intro op
    apply List.all_eq_true.mp
    cases op <;> decide
  obtain ⟨hsame, hblank⟩ := run_unique h (hsymbol a) (hsymbol b) (head?_cons_stop rfl _)
    (head?_cons_stop rfl _)
  refine ⟨?_, (List.cons.inj hblank).2⟩
  revert ha hb hsame
  cases a <;> cases b <;> decide

namespace Triad

/-- Two triads that are written alike. -/
structure Alike (s t : Triad) : Prop where
  number : s.number = t.number
  operator : s.operator = t.operator
  left : s.left.Alike t.left
  right : s.right.Alike t.right

theorem line_append {t : Triad} (h : t.operator ≠ .negate) (rest : List Char) :
    t.line.toList ++ rest =
      Nat.toDigits 10 t.number ++ ' ' :: (t.operator.symbol.toList ++ ' ' :: '(' ::
        (t.left.text.toList ++ ' ' :: (t.right.text.toList ++ ')' :: '\n' :: rest))) := by
  have htext : t.text = t.operator.symbol ++ " (" ++ t.left.text ++ " " ++ t.right.text ++ ")" := by
    rw [text, Operator.apply]
    exact h
  simp [line, htext]

theorem Alike.line_eq {s t : Triad} (h : s.Alike t) : s.line = t.line := by
  rw [line, line, text, text, h.number, h.operator, h.left.text_eq, h.right.text_eq]

/-- A line can be told from what follows it in one way only, up to the kinds of terms. -/
theorem line_unique {s t : Triad} (hs : s.Read) (ht : t.Read) {rest rest' : List Char}
    (h : s.line.toList ++ rest = t.line.toList ++ rest') : s.Alike t ∧ rest = rest' := by
  rw [line_append hs.operator, line_append ht.operator] at h
  obtain ⟨hnumber, h⟩ := toDigits_unique h (head?_cons_stop rfl _) (head?_cons_stop rfl _)
  obtain ⟨hoperator, h⟩ := Operator.symbol_unique hs.operator ht.operator (List.cons.inj h).2
  have hblank : ∀ text : List Char, EndsTerm (' ' :: text) := head?_cons_stop (by decide)
  have hbracket : ∀ text : List Char, EndsTerm (')' :: text) := head?_cons_stop (by decide)
  obtain ⟨hleft, h⟩ := Operand.text_unique hs.left ht.left (hblank _) (hblank _) (List.cons.inj h).2
  obtain ⟨hright, h⟩ := Operand.text_unique hs.right ht.right (hbracket _) (hbracket _)
    (List.cons.inj h).2
  exact ⟨⟨hnumber, hoperator, hleft, hright⟩, (List.cons.inj (List.cons.inj h).2).2⟩

theorem line_append_ne_nil (t : Triad) (rest : List Char) : t.line.toList ++ rest ≠ [] := by
  simp [line]

end Triad

/-! ## Listings -/

/-- Lines one after the other can be told apart in one way only. -/
theorem forall₂_alike_of_lines_eq {ss ts : List Triad} (hs : ∀ s ∈ ss, s.Read)
    (ht : ∀ t ∈ ts, t.Read)
    (h : ss.flatMap (fun s => s.line.toList) = ts.flatMap (fun t => t.line.toList)) :
    List.Forall₂ Triad.Alike ss ts := by
  induction ss generalizing ts with
  | nil =>
    cases ts with
    | nil => exact .nil
    | cons t ts => exact absurd h.symm (t.line_append_ne_nil _)
  | cons s ss ih =>
    cases ts with
    | nil => exact absurd h (s.line_append_ne_nil _)
    | cons t ts =>
      rw [List.forall_mem_cons] at hs ht
      obtain ⟨halike, hothers⟩ := Triad.line_unique hs.1 ht.1 h
      exact .cons halike (ih hs.2 ht.2 hothers)

theorem lines_eq_of_forall₂_alike {ss ts : List Triad} (h : List.Forall₂ Triad.Alike ss ts) :
    ss.map Triad.line = ts.map Triad.line := by
  induction h with
  | nil => rfl
  | cons halike _ ih => rw [List.map_cons, List.map_cons, halike.line_eq, ih]

/-- The listings of two statements have the same text exactly when they have as many triads and,
triad by triad, the same number, the same operator, and operands with as many changes of sign around
the same temporary or around two terms with the same text. -/
theorem text_determines_triads {source₁ source₂ : String} {l₁ l₂ : Listing}
    (h₁ : parse source₁ = .ok l₁) (h₂ : parse source₂ = .ok l₂) :
    l₁.text = l₂.text ↔
      l₁.size = l₂.size ∧ List.Forall₂ Triad.Alike l₁.triads.toList l₂.triads.toList := by
  obtain ⟨a₁, hdenotes₁, -, rfl⟩ := exists_assignment_of_parse h₁
  obtain ⟨a₂, hdenotes₂, -, rfl⟩ := exists_assignment_of_parse h₂
  constructor
  · intro h
    have hlines := congrArg String.toList h
    simp only [Listing.text, String.toList_join, List.flatMap_map] at hlines
    have halike := forall₂_alike_of_lines_eq hdenotes₁.read hdenotes₂.read hlines
    refine ⟨?_, halike⟩
    simpa [Listing.size] using halike.length_eq
  · rintro ⟨-, halike⟩
    rw [Listing.text, Listing.text, lines_eq_of_forall₂_alike halike]

/-- Changes of sign next to a difference, once with names and a number and once with characters. -/
theorem text_determines_triads_quoted :
    ∃ l₁ l₂, parse "a:=--b*(c-1);" = .ok l₁ ∧ parse "'a':=--'b'*('c'-'1');" = .ok l₂ ∧
      l₁ ≠ l₂ ∧ l₁.text = l₂.text ∧ l₁.size = l₂.size ∧
      List.Forall₂ Triad.Alike l₁.triads.toList l₂.triads.toList := by
  let listing (a b c one : Operand) : Listing := ⟨#[
    ⟨1, .subtract, c, one, some 1⟩,
    ⟨2, .multiply, .negated (.negated b), .temporary 1, some 2⟩,
    ⟨3, .assign, a, .temporary 2, none⟩]⟩
  let l₁ := listing (.identifier "a") (.identifier "b") (.identifier "c")
    (.number ⟨0x3FF0000000000000⟩)
  let l₂ := listing (.character 'a') (.character 'b') (.character 'c') (.character '1')
  have h₁ : parse "a:=--b*(c-1);" = .ok l₁ := by decide +kernel
  have h₂ : parse "'a':=--'b'*('c'-'1');" = .ok l₂ := by decide +kernel
  have htext : l₁.text = l₂.text := by decide +kernel
  exact ⟨l₁, l₂, h₁, h₂, by decide +kernel, htext, (text_determines_triads h₁ h₂).mp htext⟩

end ThreeAddress
