import Mathlib.Data.List.Forall2
import ThreeAddress.Proofs.Places

/-!
# Scanning a text

A cursor keeps the bytes delivered and the characters to be delivered apart, and every move counts
both on. Here a client sends requests to a scanner: moves of the cursor, and keeping a copy of it to
go back to. The client writes down which text it has been given. After any requests the two parts of
the cursor agree: the position is the length of the text that was given, in bytes, and what
follows that position in the source is what is still to be delivered.

A cursor that stands between two parts of a text is written `Cursor.between`, and every operation is
described once by what it does to such a cursor.
-/
namespace ThreeAddress
open Text

namespace Cursor

/-- The cursor between two parts of a text. -/
def between (before after : List Char) : Cursor := ⟨before ++ after, byteLength before, after⟩

variable (before after : List Char)

@[simp] theorem remainder_between : (between before after).remainder = after :=
  dropBytes_byteLength_append before after

theorem between_append (run : List Char) : between (before ++ run) after =
    ⟨before ++ (run ++ after), byteLength before + byteLength run, after⟩ := by
  rw [between, List.append_assoc, byteLength_append]

theorem next?_between_nil : (between before []).next? = none := rfl

theorem next?_between_cons (x : Char) :
    (between before (x :: after)).next? = some (x, between (before ++ [x]) after) := by
  rw [between_append]
  rfl

theorem accept?_between (x : Char) : (between before after).accept? x =
    if after.head? = some x then some (between (before ++ [x]) after.tail) else none := by
  unfold accept?
  cases after with
  | nil => rfl
  | cons y after =>
    rw [next?_between_cons]
    by_cases hy : y = x
    · subst hy
      simp
    · simp [hy]

theorem acceptAll?_between_append (token : List Char) :
    (between before (token ++ after)).acceptAll? token =
      some (between (before ++ token) after) := by
  induction token generalizing before with
  | nil => rw [List.append_nil]; rfl
  | cons x token ih =>
    have hstep : (between before (x :: token ++ after)).accept? x =
        some (between (before ++ [x]) (token ++ after)) := by
      rw [accept?_between]
      simp
    rw [acceptAll?, hstep, Option.bind_some, ih, List.append_assoc, List.singleton_append]

theorem acceptAll?_between_of_not {token : List Char} (h : ¬token <+: after) :
    (between before after).acceptAll? token = none :=
  acceptAll?_eq_none_iff.mpr h

theorem takeWhile_between (p : Char → Bool) : (between before after).takeWhile p =
    (after.takeWhile p, between (before ++ after.takeWhile p) (after.dropWhile p)) := by
  rw [between_append, List.takeWhile_append_dropWhile]
  rfl

/-! ## Moving one character at a time -/

/-- Asks for the next character so many times. -/
def advance : Nat → Cursor → Cursor
  | 0, c => c
  | n + 1, c =>
      match c.next? with
      | some (_, after) => advance n after
      | none => advance n c

/-- Asks for the next character for as long as one of a class is seen, and keeps what it gets. -/
def collectWhile (p : Char → Bool) (kept : List Char) (c : Cursor) : List Char × Cursor :=
  match h : c.next? with
  | some (x, after) =>
      have _shorter := congrArg List.length (rest_of_next? h)
      if p x then collectWhile p (kept ++ [x]) after else (kept, c)
  | none => (kept, c)
termination_by c.rest.length
decreasing_by simp_all

theorem advance_length {token rest : List Char} {c : Cursor} (h : c.rest = token ++ rest) :
    c.acceptAll? token = some (c.advance token.length) := by
  induction token generalizing c with
  | nil => rfl
  | cons x token ih =>
    have hnext := next?_cons h
    rw [acceptAll?, accept?_cons h, Option.bind_some, List.length_cons, advance, hnext]
    exact ih rfl

/-- A token is moved over character by character, after it was looked for in the remainder. -/
theorem acceptAll?_eq_advance {c : Cursor} (h : c.rest = c.remainder) (token : List Char) :
    c.acceptAll? token =
      if token <+: c.remainder then some (c.advance token.length) else none := by
  rw [← h]
  split
  · rename_i htoken
    obtain ⟨rest, hrest⟩ := htoken
    exact advance_length hrest.symm
  · rename_i hother
    exact acceptAll?_eq_none_iff.mpr hother

/-- A run is moved over character by character. -/
theorem collectWhile_eq_takeWhile (p : Char → Bool) (kept : List Char) (c : Cursor) :
    collectWhile p kept c = (kept ++ (c.takeWhile p).1, (c.takeWhile p).2) := by
  fun_induction collectWhile p kept c with
  | case1 kept c x after hnext _ hx ih =>
    have hrest := rest_of_next? hnext
    rw [next?_cons hrest] at hnext
    have hafter : after = c.past x after.rest := (Prod.mk.inj (Option.some.inj hnext)).2.symm
    rw [ih, hafter]
    simp [takeWhile, past, hrest, hx, Nat.add_assoc]
  | case2 kept c x after hnext _ hx =>
    obtain ⟨source, position, rest⟩ := c
    obtain rfl : rest = x :: after.rest := rest_of_next? hnext
    simp [takeWhile, hx]
  | case3 kept c hnext =>
    obtain ⟨source, position, rest⟩ := c
    cases rest with
    | nil => simp [takeWhile]
    | cons x rest => cases hnext

end Cursor

/-! ## Requests -/

/-- A cursor with the copies of it that were kept, the oldest first. -/
structure Scanner where
  cursor : Cursor
  copies : List Cursor := []

namespace Scanner

inductive Request where
  | next
  | peek
  | accept (c : Char)
  | acceptAll (token : String)
  | takeWhile (p : Char → Bool)
  | atEnd
  /-- Keeps a copy of the cursor. -/
  | save
  /-- Goes back to a copy, named by how many were kept before it. -/
  | restore (copy : Nat)

inductive Answer where
  | character (c? : Option Char)
  | flag (b : Bool)
  | run (text : List Char)
  | nothing

/-- Takes the cursor after a token, if the token was there. -/
def accepted (s : Scanner) (after? : Option Cursor) : Answer × Scanner :=
  (.flag after?.isSome, { s with cursor := after?.getD s.cursor })

def serve (s : Scanner) : Request → Answer × Scanner
  | .next =>
      match s.cursor.next? with
      | some (c, cursor) => (.character (some c), { s with cursor })
      | none => (.character none, s)
  | .peek => (.character s.cursor.peek?, s)
  | .accept c => s.accepted (s.cursor.accept? c)
  | .acceptAll token => s.accepted (s.cursor.acceptAll? token.toList)
  | .takeWhile p =>
      let (run, cursor) := s.cursor.takeWhile p
      (.run run, { s with cursor })
  | .atEnd => (.flag s.cursor.atEnd, s)
  | .save => (.nothing, { s with copies := s.copies ++ [s.cursor] })
  | .restore copy => (.nothing, { s with cursor := s.copies.getD copy s.cursor })

/-- What a client writes down: the text that it was given, and the text that it had been given when
it asked to keep each copy. -/
structure Ledger where
  consumed : List Char := []
  copies : List (List Char) := []

/-- Writes down an answer. -/
def Ledger.note (k : Ledger) : Request → Answer → Ledger
  | .next, .character (some c) => { k with consumed := k.consumed ++ [c] }
  | .accept c, .flag true => { k with consumed := k.consumed ++ [c] }
  | .acceptAll token, .flag true => { k with consumed := k.consumed ++ token.toList }
  | .takeWhile _, .run text => { k with consumed := k.consumed ++ text }
  | .save, _ => { k with copies := k.copies ++ [k.consumed] }
  | .restore copy, _ => { k with consumed := k.copies.getD copy k.consumed }
  | _, _ => k

/-- Serves requests in turn, while the client writes down the answers. -/
def run : List Request → Scanner × Ledger → Scanner × Ledger
  | [], state => state
  | request :: requests, (s, k) =>
      let (answer, t) := s.serve request
      run requests (t, k.note request answer)

/-! ## What serving a request does -/

variable {s : Scanner} {k : Ledger} {consumed rest : List Char}

/-- How a request is served when the cursor of `s` stands between `consumed` and `rest`. -/
inductive Served (s : Scanner) (consumed rest : List Char) : Request → Answer × Scanner → Prop where
  | ended (nothing : rest = []) : Served s consumed rest .next (.character none, s)
  | next {x : Char} {later : List Char} (comes : rest = x :: later) :
      Served s consumed rest .next
        (.character (some x), { s with cursor := .between (consumed ++ [x]) later })
  | peek : Served s consumed rest .peek (.character rest.head?, s)
  | accept {x : Char} {later : List Char} (comes : rest = x :: later) :
      Served s consumed rest (.accept x)
        (.flag true, { s with cursor := .between (consumed ++ [x]) later })
  | refuse {x : Char} (other : rest.head? ≠ some x) :
      Served s consumed rest (.accept x) (.flag false, s)
  | acceptAll {token : String} {later : List Char} (comes : rest = token.toList ++ later) :
      Served s consumed rest (.acceptAll token)
        (.flag true, { s with cursor := .between (consumed ++ token.toList) later })
  | refuseAll {token : String} (other : ¬token.toList <+: rest) :
      Served s consumed rest (.acceptAll token) (.flag false, s)
  | takeWhile (p : Char → Bool) :
      Served s consumed rest (.takeWhile p)
        (.run (rest.takeWhile p),
          { s with cursor := .between (consumed ++ rest.takeWhile p) (rest.dropWhile p) })
  | atEnd : Served s consumed rest .atEnd (.flag rest.isEmpty, s)
  | save : Served s consumed rest .save (.nothing, { s with copies := s.copies ++ [s.cursor] })
  | restore (copy : Nat) :
      Served s consumed rest (.restore copy)
        (.nothing, { s with cursor := s.copies.getD copy s.cursor })

theorem served (h : s.cursor = .between consumed rest) (request : Request) :
    Served s consumed rest request (s.serve request) := by
  cases request with
  | next =>
    cases rest with
    | nil =>
      rw [serve, h, Cursor.next?_between_nil]
      exact .ended rfl
    | cons x later =>
      rw [serve, h, Cursor.next?_between_cons]
      exact .next rfl
  | peek =>
    rw [serve, h]
    exact .peek
  | accept x =>
    rw [serve, accepted, h, Cursor.accept?_between]
    by_cases hx : rest.head? = some x
    · obtain ⟨later, rfl⟩ := List.head?_eq_some_iff.mp hx
      rw [if_pos hx]
      exact .accept rfl
    · rw [if_neg hx, Option.getD_none, ← h]
      exact .refuse hx
  | acceptAll token =>
    by_cases htoken : token.toList <+: rest
    · obtain ⟨later, rfl⟩ := htoken
      rw [serve, accepted, h, Cursor.acceptAll?_between_append]
      exact .acceptAll rfl
    · have haccept : s.cursor.acceptAll? token.toList = none := by
        rw [h, Cursor.acceptAll?_between_of_not _ _ htoken]
      rw [serve, accepted, haccept]
      exact .refuseAll htoken
  | takeWhile p =>
    rw [serve, h, Cursor.takeWhile_between]
    exact .takeWhile p
  | atEnd =>
    rw [serve, h]
    exact .atEnd
  | save => exact .save
  | restore copy => exact .restore copy

/-! ## The scanner and the client agree -/

/-- The cursor stands in the text after the part that was given. -/
def IsAfter (text : List Char) (c : Cursor) (consumed : List Char) : Prop :=
  ∃ rest, text = consumed ++ rest ∧ c = .between consumed rest

/-- The cursor and its copies stand where the client has written that they do. -/
structure Agrees (text : List Char) (s : Scanner) (k : Ledger) : Prop where
  cursor : IsAfter text s.cursor k.consumed
  copies : List.Forall₂ (IsAfter text) s.copies k.copies

variable {text : List Char}

theorem agrees_start (text : List Char) : Agrees text { cursor := .start text } {} where
  cursor := ⟨text, rfl, rfl⟩
  copies := .nil

theorem Agrees.move (h : Agrees text s k) {run rest : List Char}
    (htext : text = k.consumed ++ (run ++ rest)) :
    Agrees text { s with cursor := .between (k.consumed ++ run) rest }
      { k with consumed := k.consumed ++ run } where
  cursor := ⟨rest, by rw [htext, List.append_assoc], rfl⟩
  copies := h.copies

theorem Agrees.restore (h : Agrees text s k) (copy : Nat) :
    Agrees text { s with cursor := s.copies.getD copy s.cursor }
      { k with consumed := k.copies.getD copy k.consumed } where
  cursor := by
    have hlength := h.copies.length_eq
    by_cases hcopy : copy < s.copies.length
    · have hget := h.copies.get hcopy (hlength ▸ hcopy)
      simpa [List.getD_eq_getElem?_getD, List.getElem?_eq_getElem, hcopy,
        hlength ▸ hcopy] using hget
    · have hnone : s.copies[copy]? = none := List.getElem?_eq_none (by omega)
      have hnone' : k.copies[copy]? = none := List.getElem?_eq_none (by omega)
      simpa [List.getD_eq_getElem?_getD, hnone, hnone'] using h.cursor
  copies := h.copies

/-- A served request keeps scanner and client in agreement. -/
theorem Agrees.serve (h : Agrees text s k) (request : Request) :
    Agrees text (s.serve request).2 (k.note request (s.serve request).1) := by
  obtain ⟨rest, htext, hcursor⟩ := h.cursor
  generalize hserve : s.serve request = result
  have hserved := served hcursor request
  rw [hserve] at hserved
  cases hserved with
  | ended | peek | refuse | refuseAll | atEnd => exact h
  | next comes | accept comes | acceptAll comes =>
    subst comes
    exact h.move htext
  | takeWhile p =>
    refine h.move ?_
    rw [htext, List.takeWhile_append_dropWhile]
  | save => exact ⟨h.cursor, List.rel_append h.copies (.cons h.cursor .nil)⟩
  | restore copy => exact h.restore copy

theorem Agrees.run (h : Agrees text s k) (requests : List Request) :
    Agrees text (run requests (s, k)).1 (run requests (s, k)).2 := by
  induction requests generalizing s k with
  | nil => exact h
  | cons request requests ih => exact ih (h.serve request)

/-! ## What holds after any requests -/

/-- The parts of the cursor are in step with each other and with the text that was given. -/
structure InStep (source : String) (c : Cursor) (consumed : List Char) : Prop where
  boundary : String.Pos.Raw.IsValid source ⟨c.position⟩
  bounded : c.position ≤ source.utf8ByteSize
  pending : c.rest = c.remainder
  split : source.toList = consumed ++ c.remainder
  position : c.position = (String.ofList consumed).utf8ByteSize

theorem IsAfter.inStep {source : String} {c : Cursor} (h : IsAfter source.toList c consumed) :
    InStep source c consumed := by
  obtain ⟨rest, hsource, rfl⟩ := h
  have hposition : (Cursor.between consumed rest).position =
      (String.ofList consumed).utf8ByteSize := byteLength_eq_utf8ByteSize consumed
  have hvalid : String.Pos.Raw.IsValid source ⟨(Cursor.between consumed rest).position⟩ := by
    rw [String.Pos.Raw.isValid_iff_exists_append]
    refine ⟨String.ofList consumed, String.ofList rest, ?_, ?_⟩
    · rw [← String.ofList_append, ← hsource, String.ofList_toList]
    · rw [hposition]
      rfl
  exact ⟨hvalid, hvalid.le_rawEndPos, by rw [Cursor.remainder_between]; rfl,
    by rw [Cursor.remainder_between]; exact hsource, hposition⟩

/-- Position and remainder are as before. -/
def Stays (c after : Cursor) : Prop :=
  after.position = c.position ∧ after.remainder = c.remainder

/-- The cursor moves over exactly this text. -/
def Moves (c : Cursor) (text : List Char) (after : Cursor) : Prop :=
  c.remainder = text ++ after.remainder ∧
    after.position = c.position + (String.ofList text).utf8ByteSize

/-- The longest beginning of a text whose characters are of a class. -/
structure IsLongest (p : Char → Bool) (text run : List Char) : Prop where
  isPrefix : run <+: text
  within : ∀ c ∈ run, p c
  longest : ∀ other, other <+: text → (∀ c ∈ other, p c) → other.length ≤ run.length

/-- What a request asks for, in terms of what is still to be read. -/
def Meets (s : Scanner) (answer : Answer) (t : Scanner) : Request → Prop
  | .next => answer = .character s.cursor.remainder.head? ∧
      Moves s.cursor (s.cursor.remainder.take 1) t.cursor
  | .peek => answer = .character s.cursor.remainder.head? ∧ Stays s.cursor t.cursor
  | .accept x =>
      (s.cursor.remainder.head? = some x ∧ answer = .flag true ∧ Moves s.cursor [x] t.cursor) ∨
        (s.cursor.remainder.head? ≠ some x ∧ answer = .flag false ∧ Stays s.cursor t.cursor)
  | .acceptAll token =>
      (token.toList <+: s.cursor.remainder ∧ answer = .flag true ∧
          Moves s.cursor token.toList t.cursor) ∨
        (¬token.toList <+: s.cursor.remainder ∧ answer = .flag false ∧ Stays s.cursor t.cursor)
  | .takeWhile p => ∃ run, answer = .run run ∧ IsLongest p s.cursor.remainder run ∧
      Moves s.cursor run t.cursor
  | .atEnd => answer = .flag s.cursor.remainder.isEmpty ∧ Stays s.cursor t.cursor
  | .save => t.copies = s.copies ++ [s.cursor] ∧ Stays s.cursor t.cursor
  | .restore copy => ∀ c, s.copies[copy]? = some c → Stays c t.cursor

theorem moves_between (consumed run rest : List Char) :
    Moves (.between consumed (run ++ rest)) run (.between (consumed ++ run) rest) := by
  constructor
  · rw [Cursor.remainder_between, Cursor.remainder_between]
  · rw [← byteLength_eq_utf8ByteSize]
    exact byteLength_append consumed run

theorem isLongest_takeWhile (p : Char → Bool) (text : List Char) :
    IsLongest p text (text.takeWhile p) where
  isPrefix := List.takeWhile_prefix p
  within c hc := List.mem_takeWhile_imp hc
  longest other hother hall := by
    obtain ⟨rest, rfl⟩ := hother
    rw [List.takeWhile_append_of_pos hall, List.length_append]
    exact Nat.le_add_right _ _

theorem stays_self (c : Cursor) : Stays c c := ⟨rfl, rfl⟩

/-- Every request is answered for what is still to be read. -/
theorem meets_serve (h : s.cursor = .between consumed rest) (request : Request) :
    Meets s (s.serve request).1 (s.serve request).2 request := by
  have hremainder : s.cursor.remainder = rest := by rw [h, Cursor.remainder_between]
  have hmoves : ∀ {run later : List Char}, rest = run ++ later →
      Moves s.cursor run (.between (consumed ++ run) later) := by
    intro run later hrest
    rw [h, hrest]
    exact moves_between consumed run later
  generalize hserve : s.serve request = result
  have hserved := served h request
  rw [hserve] at hserved
  cases hserved with
  | ended nothing =>
    subst nothing
    rw [Meets, hremainder]
    exact ⟨rfl, by simp, by simp⟩
  | next comes =>
    subst comes
    rw [Meets, hremainder]
    exact ⟨rfl, hmoves rfl⟩
  | peek =>
    rw [Meets, hremainder]
    exact ⟨rfl, stays_self _⟩
  | accept comes =>
    subst comes
    rw [Meets, hremainder]
    exact .inl ⟨rfl, rfl, hmoves rfl⟩
  | refuse other =>
    rw [Meets, hremainder]
    exact .inr ⟨other, rfl, stays_self _⟩
  | acceptAll comes =>
    subst comes
    rw [Meets, hremainder]
    exact .inl ⟨List.prefix_append _ _, rfl, hmoves rfl⟩
  | refuseAll other =>
    rw [Meets, hremainder]
    exact .inr ⟨other, rfl, stays_self _⟩
  | takeWhile p =>
    rw [Meets, hremainder]
    exact ⟨_, rfl, isLongest_takeWhile p rest, hmoves List.takeWhile_append_dropWhile.symm⟩
  | atEnd =>
    rw [Meets, hremainder]
    exact ⟨rfl, stays_self _⟩
  | save => exact ⟨rfl, stays_self _⟩
  | restore copy =>
    intro c hc
    have hcursor : s.copies.getD copy s.cursor = c := by
      rw [List.getD_eq_getElem?_getD, hc, Option.getD_some]
    rw [hcursor]
    exact stays_self c

/-- A scanner at the start of a source and its client, after some requests. -/
def after (source : String) (requests : List Request) : Scanner × Ledger :=
  run requests ({ cursor := .start source.toList }, {})

/-- After any requests the cursor and every copy of it are in step with the text that the client was
given up to there, and any further request is answered for what is still to be read. -/
theorem scanner_stays_in_step (source : String) (requests : List Request) :
    InStep source (after source requests).1.cursor (after source requests).2.consumed ∧
      List.Forall₂ (InStep source) (after source requests).1.copies
        (after source requests).2.copies ∧
      ∀ request, Meets (after source requests).1 ((after source requests).1.serve request).1
        ((after source requests).1.serve request).2 request := by
  obtain ⟨hcursor, hcopies⟩ := (agrees_start source.toList).run requests
  refine ⟨hcursor.inStep, hcopies.imp fun c consumed hc => hc.inStep, fun request => ?_⟩
  obtain ⟨rest, -, hbetween⟩ := hcursor
  exact meets_serve hbetween request

end Scanner
end ThreeAddress
