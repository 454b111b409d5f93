/-!
# Lengths and positions in bytes

Positions in a text are counted in the bytes of its UTF-8 encoding. A text is a list of
characters here, so a position is the encoded length of the characters before it.
-/
namespace ThreeAddress.Text

/-- The number of bytes that encode a text. -/
def byteLength : List Char → Nat
  | [] => 0
  | c :: cs => c.utf8Size + byteLength cs

/-- The text from a byte position on; a position inside a character drops that character. -/
def dropBytes : Nat → List Char → List Char
  | 0, cs => cs
  | _ + 1, [] => []
  | n + 1, c :: cs => dropBytes (n + 1 - c.utf8Size) cs

/-- The text before a byte position; there is none for a position inside a character or beyond the
end. -/
def takeBytes? : Nat → List Char → Option (List Char)
  | 0, _ => some []
  | _ + 1, [] => none
  | n + 1, c :: cs =>
      if n + 1 < c.utf8Size then none else (takeBytes? (n + 1 - c.utf8Size) cs).map (c :: ·)

@[simp] theorem byteLength_nil : byteLength [] = 0 := rfl

@[simp] theorem byteLength_cons (c : Char) (cs : List Char) :
    byteLength (c :: cs) = c.utf8Size + byteLength cs := rfl

@[simp] theorem byteLength_append (xs ys : List Char) :
    byteLength (xs ++ ys) = byteLength xs + byteLength ys := by
  induction xs with
  | nil => simp
  | cons c cs ih => simp [ih, Nat.add_assoc]

@[simp] theorem dropBytes_zero (cs : List Char) : dropBytes 0 cs = cs := by
  cases cs <;> rfl

/-- A text with a first character has bytes, and those of the first character are among them. -/
theorem exists_byteLength_cons (c : Char) (cs : List Char) :
    ∃ k, byteLength (c :: cs) = k + 1 ∧ c.utf8Size ≤ k + 1 ∧ k + 1 - c.utf8Size = byteLength cs := by
  have positive := c.utf8Size_pos
  refine ⟨byteLength (c :: cs) - 1, ?_, ?_, ?_⟩ <;> rw [byteLength_cons] <;> omega

/-- Dropping as many bytes as a first part has leaves the second part. -/
@[simp] theorem dropBytes_byteLength_append (xs ys : List Char) :
    dropBytes (byteLength xs) (xs ++ ys) = ys := by
  induction xs with
  | nil => simp
  | cons c cs ih =>
      obtain ⟨k, hk, -, left⟩ := exists_byteLength_cons c cs
      rw [hk, List.cons_append, dropBytes, left, ih]

/-- As many bytes as a first part has are that part. -/
theorem takeBytes?_byteLength_append (xs ys : List Char) :
    takeBytes? (byteLength xs) (xs ++ ys) = some xs := by
  induction xs with
  | nil => cases ys <;> rfl
  | cons c cs ih =>
      obtain ⟨k, hk, fits, left⟩ := exists_byteLength_cons c cs
      rw [hk, List.cons_append, takeBytes?, if_neg (Nat.not_lt.mpr fits), left, ih,
        Option.map_some]

/-- The bytes of a text are those of the string with its characters. -/
theorem byteLength_eq_utf8ByteSize (cs : List Char) :
    byteLength cs = (String.ofList cs).utf8ByteSize := by
  induction cs with
  | nil => simp
  | cons c cs ih =>
    have hcons : String.ofList (c :: cs) = String.singleton c ++ String.ofList cs := by
      rw [String.singleton_eq_ofList, ← String.ofList_append]
      rfl
    rw [hcons, String.utf8ByteSize_append, String.utf8ByteSize_singleton, byteLength_cons, ih]

end ThreeAddress.Text
