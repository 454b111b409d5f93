import ThreeAddress.Text.Utf8

/-!
# A reading position in a text

A cursor keeps the whole text, the byte position reached in it, and the characters that are still
to be delivered. The position names the place in messages; the characters drive the reading.
`remainder` is recomputed from the text and the position, so that the two views can be compared.
-/
namespace ThreeAddress

structure Cursor where
  /-- The whole text. -/
  source : List Char
  /-- Bytes of the text delivered so far. -/
  position : Nat
  /-- Characters still to be delivered. -/
  rest : List Char
  deriving DecidableEq, Repr

namespace Cursor
open Text

/-- The start of a text. -/
def start (text : List Char) : Cursor := ⟨text, 0, text⟩

/-- The text from the position reached. -/
def remainder (c : Cursor) : List Char := dropBytes c.position c.source

/-- The cursor after the next character and what it is. -/
def next? (c : Cursor) : Option (Char × Cursor) :=
  match c.rest with
  | [] => none
  | x :: rest => some (x, { c with position := c.position + x.utf8Size, rest })

/-- The next character, without moving. -/
def peek? (c : Cursor) : Option Char := c.rest.head?

/-- Whether the whole text has been delivered. -/
def atEnd (c : Cursor) : Bool := c.rest.isEmpty

/-- Moves over one given character if it comes next. -/
def accept? (c : Cursor) (x : Char) : Option Cursor :=
  match c.next? with
  | some (y, after) => if y = x then some after else none
  | none => none

/-- Moves over a whole token if it comes next; the empty token always does. -/
def acceptAll? (c : Cursor) : List Char → Option Cursor
  | [] => some c
  | x :: token => (c.accept? x).bind fun after => after.acceptAll? token

/-- Moves over the longest run of characters of a class and delivers it. -/
def takeWhile (c : Cursor) (p : Char → Bool) : List Char × Cursor :=
  let run := c.rest.takeWhile p
  (run, { c with position := c.position + byteLength run, rest := c.rest.dropWhile p })

theorem rest_of_next? {c after : Cursor} {x : Char} (h : c.next? = some (x, after)) :
    c.rest = x :: after.rest := by
  unfold next? at h
  split at h
  · exact nomatch h
  · obtain ⟨rfl, rfl⟩ := Prod.mk.inj (Option.some.inj h)
    assumption

theorem rest_of_accept? {c after : Cursor} {x : Char} (h : c.accept? x = some after) :
    c.rest = x :: after.rest := by
  unfold accept? at h
  split at h
  · rename_i y next hn
    split at h
    · rename_i hy
      obtain rfl := Option.some.inj h
      exact hy ▸ rest_of_next? hn
    · exact nomatch h
  · exact nomatch h

theorem rest_of_acceptAll? {token : List Char} {c after : Cursor}
    (h : c.acceptAll? token = some after) : c.rest = token ++ after.rest := by
  induction token generalizing c with
  | nil => obtain rfl := Option.some.inj h; rfl
  | cons x token ih =>
      obtain ⟨middle, hx, ht⟩ := Option.bind_eq_some_iff.1 h
      rw [rest_of_accept? hx, ih ht, List.cons_append]

theorem rest_takeWhile (c : Cursor) (p : Char → Bool) :
    c.rest = (c.takeWhile p).1 ++ (c.takeWhile p).2.rest :=
  List.takeWhile_append_dropWhile.symm

theorem length_rest_takeWhile_le (c : Cursor) (p : Char → Bool) :
    (c.takeWhile p).2.rest.length ≤ c.rest.length := by
  rw [rest_takeWhile c p, List.length_append]
  exact Nat.le_add_left ..

end Cursor
end ThreeAddress
