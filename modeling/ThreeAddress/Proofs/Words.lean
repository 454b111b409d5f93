import Mathlib.Data.List.TakeWhile
import ThreeAddress.Binary64.Numeral
import ThreeAddress.Proofs.Syntax
import ThreeAddress.Text.CharClass

/-!
# Words

A term is written as a name, a numeral or a quoted character. A word carries the proof that it is
well formed, so only texts of the right shape can be words. Names and numerals are read greedily:
where the text that follows cannot go on with either, a word and what follows it can be told apart
in one way only.
-/
namespace ThreeAddress.Grammar
open Text

/-- A run of digits and points with at least one digit and at most one point. -/
structure IsNumeral (cs : List Char) : Prop where
  parts : ∀ c ∈ cs, c.isDigit ∨ c = '.'
  digit : ∃ c ∈ cs, c.isDigit
  point : cs.count '.' ≤ 1

/-! ## Numerals denote numbers -/

lemma count_point_of_digits {cs : List Char} (h : ∀ c ∈ cs, c.isDigit) : cs.count '.' = 0 := by
  rw [List.count_eq_zero]
  intro hmem
  exact absurd (h '.' hmem) (by decide)

lemma isNumeral_of_digits {cs : List Char} (hne : cs ≠ []) (h : ∀ c ∈ cs, c.isDigit) :
    IsNumeral cs where
  parts := fun c hc => .inl (h c hc)
  digit := by
    obtain ⟨c, hc⟩ := List.exists_mem_of_ne_nil cs hne
    exact ⟨c, hc, h c hc⟩
  point := by
    rw [count_point_of_digits h]
    omega

lemma isNumeral_of_point {whole fraction : List Char} (hne : whole ≠ [] ∨ fraction ≠ [])
    (hwhole : ∀ c ∈ whole, c.isDigit) (hfraction : ∀ c ∈ fraction, c.isDigit) :
    IsNumeral (whole ++ '.' :: fraction) where
  parts := by
    intro c hc
    rcases List.mem_append.mp hc with hc | hc
    · exact .inl (hwhole c hc)
    · rcases List.mem_cons.mp hc with rfl | hc
      · exact .inr rfl
      · exact .inl (hfraction c hc)
  digit := by
    rcases hne with hne | hne
    · obtain ⟨c, hc⟩ := List.exists_mem_of_ne_nil whole hne
      exact ⟨c, by simp [hc], hwhole c hc⟩
    · obtain ⟨c, hc⟩ := List.exists_mem_of_ne_nil fraction hne
      exact ⟨c, by simp [hc], hfraction c hc⟩
  point := by
    rw [List.count_append, List.count_cons, count_point_of_digits hwhole,
      count_point_of_digits hfraction]
    simp

/-- The digits of a numeral before its point and after it. A numeral without a point has none
after it. -/
inductive NumeralParts : List Char → List Char → List Char → Prop where
  | whole {digits : List Char} (hne : digits ≠ []) (hdigits : ∀ c ∈ digits, c.isDigit) :
      NumeralParts digits digits []
  | point {whole fraction : List Char} (hne : whole ≠ [] ∨ fraction ≠ [])
      (hwhole : ∀ c ∈ whole, c.isDigit) (hfraction : ∀ c ∈ fraction, c.isDigit) :
      NumeralParts (whole ++ '.' :: fraction) whole fraction

lemma NumeralParts.isNumeral {cs whole fraction : List Char}
    (h : NumeralParts cs whole fraction) : IsNumeral cs := by
  cases h with
  | whole hne hdigits => exact isNumeral_of_digits hne hdigits
  | point hne hwhole hfraction => exact isNumeral_of_point hne hwhole hfraction

lemma exists_parts_of_isNumeral {cs : List Char} (h : IsNumeral cs) :
    ∃ whole fraction, NumeralParts cs whole fraction := by
  have hsplit := List.takeWhile_append_dropWhile (p := Char.isDigit) (l := cs)
  have hwhole : ∀ c ∈ cs.takeWhile Char.isDigit, c.isDigit := fun c hc =>
    List.mem_takeWhile_imp hc
  obtain ⟨d, hd, hdigit⟩ := h.digit
  cases hdrop : cs.dropWhile Char.isDigit with
  | nil =>
    rw [hdrop, List.append_nil] at hsplit
    rw [hsplit] at hwhole
    exact ⟨cs, [], .whole (List.ne_nil_of_mem hd) hwhole⟩
  | cons point fraction =>
    rw [hdrop] at hsplit
    -- The run of digits ends at a part of the numeral that is no digit, so at its only point.
    have hend : point.isDigit = false := by
      have := List.head?_dropWhile_not Char.isDigit cs
      simpa [hdrop] using this
    have hpoint : point = '.' := by
      have hmem : point ∈ cs := by rw [← hsplit]; simp
      rcases h.parts point hmem with hp | hp
      · simp [hend] at hp
      · exact hp
    subst hpoint
    have hcount : fraction.count '.' = 0 := by
      have := h.point
      rw [← hsplit, List.count_append, List.count_cons_self] at this
      omega
    have hfraction : ∀ c ∈ fraction, c.isDigit := by
      intro c hc
      have hmem : c ∈ cs := by rw [← hsplit]; simp [hc]
      rcases h.parts c hmem with hp | rfl
      · exact hp
      · exact absurd hc (List.count_eq_zero.mp hcount)
    have hne : ¬(cs.takeWhile Char.isDigit = [] ∧ fraction = []) := by
      rintro ⟨hw, rfl⟩
      rw [hw, List.nil_append] at hsplit
      rw [← hsplit, List.mem_singleton] at hd
      subst hd
      exact absurd hdigit (by decide)
    have hparts := NumeralParts.point (Classical.not_and_iff_not_or_not.mp hne) hwhole hfraction
    rw [hsplit] at hparts
    exact ⟨_, _, hparts⟩

lemma parts_of_numeralDigits? {cs digits : List Char} {places : Nat}
    (h : Binary64.numeralDigits? cs = some (digits, places)) :
    ∃ whole fraction, NumeralParts cs whole fraction ∧
      digits = whole ++ fraction ∧ places = fraction.length := by
  have hsplit := List.takeWhile_append_dropWhile (p := Char.isDigit) (l := cs)
  have hwhole : ∀ c ∈ cs.takeWhile Char.isDigit, c.isDigit := fun c hc =>
    List.mem_takeWhile_imp hc
  unfold Binary64.numeralDigits? at h
  dsimp only at h
  split at h
  · rename_i hdrop
    rw [hdrop, List.append_nil] at hsplit
    rw [hsplit] at h hwhole
    split at h
    · cases h
    · rename_i hne
      cases h
      exact ⟨cs, [], .whole (by simpa using hne) hwhole, by simp, rfl⟩
  · rename_i point fraction hdrop
    split at h
    · rename_i hshape
      simp only [Bool.and_eq_true, beq_iff_eq, List.all_eq_true, Bool.not_eq_true',
        Bool.and_eq_false_iff, List.isEmpty_eq_false_iff] at hshape
      obtain ⟨⟨rfl, hfraction⟩, hne⟩ := hshape
      cases h
      have hparts := NumeralParts.point hne hwhole hfraction
      rw [← hdrop, hsplit] at hparts
      exact ⟨_, _, hparts, rfl, rfl⟩
    · cases h

lemma NumeralParts.numeralDigits? {cs whole fraction : List Char}
    (h : NumeralParts cs whole fraction) :
    Binary64.numeralDigits? cs = some (whole ++ fraction, fraction.length) := by
  cases h with
  | whole hne hdigits =>
    have htake : cs.takeWhile Char.isDigit = cs := List.takeWhile_eq_self_iff.mpr hdigits
    have hdrop : cs.dropWhile Char.isDigit = [] := List.dropWhile_eq_nil_iff.mpr hdigits
    simp [Binary64.numeralDigits?, htake, hdrop, hne]
  | point hne hwhole hfraction =>
    -- The point is no digit, so the run of digits before it ends there.
    have hend : ¬Char.isDigit '.' = true := by decide
    unfold Binary64.numeralDigits?
    rw [List.takeWhile_append_of_pos hwhole, List.takeWhile_cons_of_neg hend, List.append_nil,
      List.dropWhile_append_of_pos hwhole, List.dropWhile_cons_of_neg hend]
    refine if_pos ?_
    simp only [beq_self_eq_true, Bool.true_and, Bool.and_eq_true, List.all_eq_true,
      Bool.not_eq_true', Bool.and_eq_false_iff, List.isEmpty_eq_false_iff]
    exact ⟨hfraction, hne⟩

/-- Exactly the numerals denote a number. -/
theorem isSome_ofNumeral?_iff {cs : List Char} :
    (Binary64.ofNumeral? cs).isSome ↔ IsNumeral cs := by
  unfold Binary64.ofNumeral?
  rw [Option.isSome_map]
  constructor
  · intro h
    obtain ⟨⟨digits, places⟩, hsome⟩ := Option.isSome_iff_exists.mp h
    obtain ⟨whole, fraction, hparts, -⟩ := parts_of_numeralDigits? hsome
    exact hparts.isNumeral
  · intro h
    obtain ⟨whole, fraction, hparts⟩ := exists_parts_of_isNumeral h
    exact Option.isSome_of_eq_some hparts.numeralDigits?

/-! ## Words and their texts -/

/-- A term as it is written. -/
inductive Word where
  /-- A letter, then letters, numbers of any script and underscores. -/
  | name (first : Char) (others : List Char) (starts : isAlphabetic first)
      (goesOn : ∀ c ∈ others, isAlphanumeric c ∨ c = '_')
  | numeral (digits : List Char) (isNumeral : IsNumeral digits)
  /-- A letter or number between quotes. -/
  | quoted (c : Char) (quotable : isAlphanumeric c)

namespace Word

def text : Word → List Char
  | name first others _ _ => first :: others
  | numeral digits _ => digits
  | quoted c _ => ['\'', c, '\'']

/-- What the word stands for; a numeral stands for the number that it denotes. -/
def term : Word → Term
  | name first others _ _ => .name (String.ofList (first :: others))
  | numeral digits h => .number ((Binary64.ofNumeral? digits).get (isSome_ofNumeral?_iff.2 h))
  | quoted c _ => .character c

/-- The first characters of words of the same kind. -/
def Starts : Word → Char → Prop
  | name .., c => isAlphabetic c
  | numeral .., c => isNumeralPart c
  | quoted .., c => c = '\''

/-- The text does not go on with the word: the run that a name or a numeral is ends there. A quoted
character has its own end. -/
def Ends : Word → List Char → Prop
  | name .., rest => ∀ c ∈ rest.head?, isNamePart c = false
  | numeral .., rest => ∀ c ∈ rest.head?, isNumeralPart c = false
  | quoted .., _ => True

end Word

/-- The text does not go on with a name or a numeral. -/
def Apart (rest : List Char) : Prop :=
  ∀ c ∈ rest.head?, isNamePart c = false ∧ isNumeralPart c = false

lemma Apart.ends {rest : List Char} (h : Apart rest) (w : Word) : w.Ends rest := by
  cases w with
  | name => exact fun c hc => (h c hc).1
  | numeral => exact fun c hc => (h c hc).2
  | quoted => trivial

/-! ## Telling words apart -/

lemma takeWhile_append_stop {p : Char → Bool} {xs rest : List Char} (hx : ∀ c ∈ xs, p c)
    (hr : ∀ c ∈ rest.head?, p c = false) : (xs ++ rest).takeWhile p = xs := by
  rw [List.takeWhile_append_of_pos hx]
  cases rest with
  | nil => simp
  | cons c rest => simp [hr c rfl]

lemma dropWhile_append_stop {p : Char → Bool} {xs rest : List Char} (hx : ∀ c ∈ xs, p c)
    (hr : ∀ c ∈ rest.head?, p c = false) : (xs ++ rest).dropWhile p = rest := by
  rw [List.dropWhile_append_of_pos hx]
  cases rest with
  | nil => rfl
  | cons c rest => simp [hr c rfl]

lemma head?_dropWhile {p : Char → Bool} (xs : List Char) :
    ∀ c ∈ (xs.dropWhile p).head?, p c = false := by
  intro c hc
  have hnot := List.head?_dropWhile_not p xs
  rw [Option.mem_def] at hc
  simpa [hc] using hnot

lemma head?_cons_stop {p : Char → Bool} {c : Char} (h : p c = false) (rest : List Char) :
    ∀ d ∈ (c :: rest).head?, p d = false := by
  intro d hd
  rw [← Option.some.inj hd]
  exact h

/-- A run of characters of a class ends where the class ends. -/
lemma run_unique {p : Char → Bool} {xs ys r t : List Char} (h : xs ++ r = ys ++ t)
    (hx : ∀ c ∈ xs, p c) (hy : ∀ c ∈ ys, p c) (hr : ∀ c ∈ r.head?, p c = false)
    (ht : ∀ c ∈ t.head?, p c = false) : xs = ys ∧ r = t := by
  constructor
  · rw [← takeWhile_append_stop hx hr, h, takeWhile_append_stop hy ht]
  · rw [← dropWhile_append_stop hx hr, h, dropWhile_append_stop hy ht]

lemma isDigit_of_mem_toDigits {n : Nat} : ∀ c ∈ Nat.toDigits 10 n, c.isDigit := fun _ hc =>
  Nat.isDigit_of_mem_toDigits (by decide) (by decide) hc

/-- A number in decimal digits ends where the digits end. -/
lemma toDigits_unique {m n : Nat} {r t : List Char}
    (h : Nat.toDigits 10 m ++ r = Nat.toDigits 10 n ++ t)
    (hr : ∀ c ∈ r.head?, c.isDigit = false) (ht : ∀ c ∈ t.head?, c.isDigit = false) :
    m = n ∧ r = t := by
  obtain ⟨hdigits, hrest⟩ :=
    run_unique h isDigit_of_mem_toDigits isDigit_of_mem_toDigits hr ht
  refine ⟨?_, hrest⟩
  rw [← Nat.ofDigitChars_ten_toDigits (n := m), hdigits, Nat.ofDigitChars_ten_toDigits]

lemma isAlphabetic_of_isNumeralPart {c : Char} (h : isNumeralPart c) : isAlphabetic c = false := by
  have hlow : c.toNat < 0x41 := by
    simp only [isNumeralPart, Bool.or_eq_true, beq_iff_eq] at h
    rcases h with h | rfl
    · exact Nat.lt_of_le_of_lt (Char.isDigit_iff_toNat.mp h).2 (by decide)
    · decide
  -- The table of letters starts at `A`, so the search ends at its first range.
  exact if_pos hlow

lemma isNamePart_of_isAlphabetic {c : Char} (h : isAlphabetic c) : isNamePart c := by
  simp [isNamePart, isAlphanumeric, h]

lemma isNumeralPart_of_mem {cs : List Char} (h : IsNumeral cs) : ∀ c ∈ cs, isNumeralPart c := by
  intro c hc
  simpa [isNumeralPart] using h.parts c hc

namespace Word

lemma isNamePart_of_mem_name {first : Char} {others : List Char} (hs : isAlphabetic first)
    (hg : ∀ c ∈ others, isAlphanumeric c ∨ c = '_') : ∀ c ∈ first :: others, isNamePart c := by
  intro c hc
  rcases List.mem_cons.mp hc with rfl | hc
  · exact isNamePart_of_isAlphabetic hs
  · simpa [isNamePart] using hg c hc

lemma exists_text_eq_cons (w : Word) : ∃ c cs, w.text = c :: cs ∧ w.Starts c := by
  cases w with
  | name first others hs hg => exact ⟨first, others, rfl, hs⟩
  | quoted c hc => exact ⟨'\'', [c, '\''], rfl, rfl⟩
  | numeral digits h =>
    obtain ⟨c, hc, -⟩ := h.digit
    cases digits with
    | nil => cases hc
    | cons d digits => exact ⟨d, digits, rfl, isNumeralPart_of_mem h d (by simp)⟩

/-- No word starts like a bracketed or signed atom. -/
lemma Starts.ne_bracket_and_ne_minus {w : Word} {c : Char} (h : w.Starts c) :
    c ≠ '(' ∧ c ≠ '-' := by
  constructor
  all_goals
    rintro rfl
    cases w <;> exact absurd h (by simp only [Starts]; decide)

/-- A word can be told from what follows it in one way only. -/
theorem text_unique {v w : Word} {r t : List Char} (h : v.text ++ r = w.text ++ t)
    (hr : Apart r) (ht : Apart t) : v = w ∧ r = t := by
  obtain ⟨c, cs, hc, hvc⟩ := exists_text_eq_cons v
  obtain ⟨d, ds, hd, hwd⟩ := exists_text_eq_cons w
  obtain rfl : c = d := by
    rw [hc, hd] at h
    exact (List.cons.inj h).1
  cases v with
  | name first others hs hg =>
    cases w with
    | name first' others' hs' hg' =>
      obtain ⟨hrun, hrest⟩ := run_unique h (isNamePart_of_mem_name hs hg)
        (isNamePart_of_mem_name hs' hg') (fun c hc => (hr c hc).1) (fun c hc => (ht c hc).1)
      obtain ⟨rfl, rfl⟩ := List.cons.inj hrun
      exact ⟨rfl, hrest⟩
    | numeral => simp [Starts, isAlphabetic_of_isNumeralPart hwd] at hvc
    | quoted => exact absurd (hwd ▸ hvc : isAlphabetic '\'') (by decide)
  | numeral digits hn =>
    cases w with
    | name => simp [Starts, isAlphabetic_of_isNumeralPart hvc] at hwd
    | numeral digits' hn' =>
      obtain ⟨rfl, hrest⟩ := run_unique h (isNumeralPart_of_mem hn) (isNumeralPart_of_mem hn')
        (fun c hc => (hr c hc).2) (fun c hc => (ht c hc).2)
      exact ⟨rfl, hrest⟩
    | quoted => exact absurd (hwd ▸ hvc : isNumeralPart '\'') (by decide)
  | quoted q hq =>
    cases w with
    | name => exact absurd (hvc ▸ hwd : isAlphabetic '\'') (by decide)
    | numeral => exact absurd (hvc ▸ hwd : isNumeralPart '\'') (by decide)
    | quoted q' hq' =>
      simp only [text, List.cons_append, List.nil_append, List.cons.injEq, true_and] at h
      obtain ⟨rfl, hrest⟩ := h
      exact ⟨rfl, hrest⟩

end Word
end ThreeAddress.Grammar
