import ThreeAddress.Proofs.Acceptance
import ThreeAddress.Proofs.Places

/-!
# What the log of a reading says

Reading reports the start of every sum and product, and every temporary and triad as it comes into
being. Whatever the text and wherever reading breaks off, the log tells which triads were emitted:
each temporary is allocated right before the triad that it belongs to is emitted, temporaries are
counted up from one, and an assignment is emitted only as the last act of a reading that succeeds.

`Logs` says which events a log may have next. The single acts of a reading keep a session whose log
is of this kind, hence every reader does, also when it fails; what the messages say then follows by
induction on the log.
-/
namespace ThreeAddress.Statement

/-! ## Logs -/

/-- The triad of a binary operation that is emitted after `n` others. -/
def operationTriad (n : Nat) (op : BinaryOperator) (left right : Operand) : Triad :=
  { number := n + 1, operator := op.operator, left, right, result? := some (n + 1) }

/-- The log of a reading that has emitted these triads, all of them of binary operations. -/
inductive Logs : List Event → List Triad → Prop where
  | nil : Logs [] []
  | reading {log : List Event} {triads : List Triad} (earlier : Logs log triads)
      (phrase : Precedence) (cursor : Cursor) : Logs (log ++ [.reading phrase cursor]) triads
  | operation {log : List Event} {triads : List Triad} (earlier : Logs log triads)
      (op : BinaryOperator) (left right : Operand) :
      Logs
        (log ++ [.allocated (triads.length + 1),
          .emitted (operationTriad triads.length op left right)])
        (triads ++ [operationTriad triads.length op left right])

/-- The log of the session tells the triads that the session holds. -/
def Session.Mirrored (s : Session) : Prop :=
  ∃ triads, Logs s.events.toList triads ∧ s.Holds triads

theorem Session.Mirrored.start (cursor : Cursor) : Session.Mirrored { cursor } :=
  ⟨[], .nil, rfl, rfl⟩

theorem kept_mirrored : Session.Kept Session.Mirrored where
  move := by
    rintro s cursor ⟨triads, hlogs, hholds⟩ -
    exact ⟨triads, hlogs, hholds.of_eq rfl rfl⟩
  level := by
    rintro s depth ⟨triads, hlogs, hholds⟩
    exact ⟨triads, hlogs, hholds.of_eq rfl rfl⟩
  announce := by
    rintro s phrase ⟨triads, hlogs, hholds⟩
    refine ⟨triads, ?_, hholds.of_eq rfl rfl⟩
    rw [Session.announce, Array.toList_push]
    exact hlogs.reading phrase s.cursor
  emit := by
    rintro s op left right ⟨triads, hlogs, hlisting, hnumbering⟩
    have hnext := hlogs.operation op left right
    refine ⟨triads ++ [operationTriad triads.length op left right], ?_, ?_, ?_⟩
    · simpa [Session.emitOperation, Numbering.nextTemporary, Numbering.nextTriad, hnumbering,
        operationTriad] using hnext
    · simp [Session.emitOperation, Numbering.nextTemporary, Numbering.nextTriad, Listing.push,
        hlisting, hnumbering, operationTriad]
    · simp [Session.emitOperation, Numbering.nextTemporary, Numbering.nextTriad, hnumbering]

/-- Whatever was read, the log tells the triads of the operations; the closing triad comes after. -/
theorem mirrored_assignment (text : List Char) :
    (assignment.run { cursor := .start text }).session.Mirrored :=
  (assignment.runs _).kept kept_mirrored (.start _)

/-! ## What the messages say -/

def allocationText (temporary : Nat) : String := "allocate temporary " ++ temporaryText temporary

def operationText (t : Triad) : String :=
  "emit " ++ toString t.number ++ " " ++ t.text ++ " -> " ++ temporaryText t.number

def assignmentText (t : Triad) : String := "emit " ++ toString t.number ++ " " ++ t.text

def isAllocation (message : String) : Bool := "allocate temporary ".toList.isPrefixOf message.toList

def isEmission (message : String) : Bool := "emit ".toList.isPrefixOf message.toList

/-- The messages tell the triads of the operations, and the closing one if it was emitted. -/
structure Tells (messages : List String) (operations : List Triad) (closing? : Option Triad) :
    Prop where
  /-- Temporaries are counted up from one without gap. -/
  allocations : messages.filter isAllocation = (List.range' 1 operations.length).map allocationText
  /-- The next message after an allocation emits the triad with that number. -/
  followed : ∀ {i k : Nat}, messages[i]? = some (allocationText k) →
    ∃ t ∈ operations, t.number = k ∧ messages[i + 1]? = some (operationText t)
  emissions : messages.filter isEmission =
    operations.map operationText ++ closing?.toList.map assignmentText
  /-- An emission comes right after an allocation, or it is the closing one and comes last. -/
  preceded : ∀ {i : Nat} {message : String}, messages[i]? = some message → isEmission message →
    (∃ j k, i = j + 1 ∧ messages[j]? = some (allocationText k)) ∨
      ∃ t ∈ closing?, message = assignmentText t ∧ i + 1 = messages.length
  closing : ∀ t ∈ closing?, messages.getLast? = some (assignmentText t)

theorem isAllocation_allocationText (k : Nat) : isAllocation (allocationText k) = true := by
  unfold allocationText
  simp [isAllocation, List.isPrefixOf]

theorem isEmission_allocationText (k : Nat) : isEmission (allocationText k) = false := by
  unfold allocationText
  simp [isEmission, List.isPrefixOf]

theorem isAllocation_operationText (t : Triad) : isAllocation (operationText t) = false := by
  unfold operationText
  simp [isAllocation, List.isPrefixOf]

theorem isEmission_operationText (t : Triad) : isEmission (operationText t) = true := by
  unfold operationText
  simp [isEmission, List.isPrefixOf]

theorem isAllocation_assignmentText (t : Triad) : isAllocation (assignmentText t) = false := by
  unfold assignmentText
  simp [isAllocation, List.isPrefixOf]

theorem isEmission_assignmentText (t : Triad) : isEmission (assignmentText t) = true := by
  unfold assignmentText
  simp [isEmission, List.isPrefixOf]

theorem allocationText_injective {j k : Nat} (h : allocationText j = allocationText k) : j = k := by
  unfold allocationText temporaryText at h
  have hlist := congrArg String.toList h
  simp only [String.toList_append, List.append_cancel_left_eq] at hlist
  have hdigits : Nat.toDigits 10 j ++ [] = Nat.toDigits 10 k ++ [] := by simpa using hlist
  exact (Grammar.toDigits_unique hdigits (by simp) (by simp)).1

theorem getElem?_append_of_some {xs : List String} {i : Nat} {x : String} (h : xs[i]? = some x)
    (ys : List String) : (xs ++ ys)[i]? = some x := by
  rw [List.getElem?_append_left (List.getElem?_eq_some_iff.mp h).1, h]

/-- A message of a longer log is an earlier one or one of those that were added. -/
theorem getElem?_append_cases {xs ys : List String} {i : Nat} {y : String}
    (h : (xs ++ ys)[i]? = some y) :
    xs[i]? = some y ∨ ∃ j, i = xs.length + j ∧ ys[j]? = some y := by
  by_cases hi : i < xs.length
  · rw [List.getElem?_append_left hi] at h
    exact .inl h
  · rw [List.getElem?_append_right (by omega)] at h
    exact .inr ⟨i - xs.length, by omega, h⟩

namespace Tells
variable {messages : List String} {operations : List Triad}

theorem nil : Tells [] [] none where
  allocations := rfl
  followed h := by simp at h
  emissions := rfl
  preceded h := by simp at h
  closing t ht := by simp at ht

/-- What was told stays told when messages are added. -/
theorem followed_append (h : Tells messages operations none) (more : List String) {i k : Nat}
    (hi : messages[i]? = some (allocationText k)) :
    ∃ t ∈ operations, t.number = k ∧ (messages ++ more)[i + 1]? = some (operationText t) := by
  obtain ⟨t, ht, hnumber, hnext⟩ := h.followed hi
  exact ⟨t, ht, hnumber, getElem?_append_of_some hnext more⟩

theorem preceded_append (h : Tells messages operations none) (more : List String) {i : Nat}
    {message : String} (hi : messages[i]? = some message) (hemits : isEmission message) :
    ∃ j k, i = j + 1 ∧ (messages ++ more)[j]? = some (allocationText k) := by
  rcases h.preceded hi hemits with ⟨j, k, hj, halloc⟩ | ⟨t, ht, -⟩
  · exact ⟨j, k, hj, getElem?_append_of_some halloc more⟩
  · simp at ht

/-- A message of another kind tells nothing. -/
theorem other (h : Tells messages operations none) {message : String}
    (halloc : isAllocation message = false) (hemit : isEmission message = false) :
    Tells (messages ++ [message]) operations none where
  allocations := by simp [List.filter_append, h.allocations, halloc]
  followed {i k} hi := by
    rcases getElem?_append_cases hi with hearlier | ⟨j, hj, hlast⟩
    · exact h.followed_append _ hearlier
    · have hmessage := List.mem_singleton.mp (List.mem_of_getElem? hlast)
      rw [← hmessage, isAllocation_allocationText] at halloc
      cases halloc
  emissions := by simp [List.filter_append, h.emissions, hemit]
  preceded {i m} hi hm := by
    rcases getElem?_append_cases hi with hearlier | ⟨j, hj, hlast⟩
    · exact .inl (h.preceded_append _ hearlier hm)
    · have hmessage := List.mem_singleton.mp (List.mem_of_getElem? hlast)
      rw [hmessage, hemit] at hm
      cases hm
  closing t ht := by simp at ht

/-- An allocation with the emission after it tells the next triad. -/
theorem operation (h : Tells messages operations none) {t : Triad}
    (ht : t.number = operations.length + 1) :
    Tells (messages ++ [allocationText t.number, operationText t]) (operations ++ [t]) none where
  allocations := by
    simp [List.filter_append, h.allocations, isAllocation_allocationText,
      isAllocation_operationText, ht, List.range'_1_concat, Nat.add_comm]
  followed {i k} hi := by
    rcases getElem?_append_cases hi with hearlier | ⟨j, rfl, hadded⟩
    · obtain ⟨t', ht', hnext⟩ :=
        h.followed_append [allocationText t.number, operationText t] hearlier
      exact ⟨t', List.mem_append_left _ ht', hnext⟩
    · match j with
      | 0 =>
        have hk : t.number = k := allocationText_injective (Option.some.inj hadded)
        refine ⟨t, by simp, hk, ?_⟩
        rw [List.getElem?_append_right (by omega)]
        simp
      | 1 =>
        have htext : operationText t = allocationText k := Option.some.inj hadded
        have hother := isAllocation_operationText t
        rw [htext, isAllocation_allocationText] at hother
        cases hother
      | j + 2 => simp at hadded
  emissions := by
    simp [List.filter_append, h.emissions, isEmission_allocationText,
      isEmission_operationText]
  preceded {i m} hi hm := by
    rcases getElem?_append_cases hi with hearlier | ⟨j, rfl, hadded⟩
    · exact .inl (h.preceded_append _ hearlier hm)
    · match j with
      | 0 =>
        have htext : allocationText t.number = m := Option.some.inj hadded
        rw [← htext, isEmission_allocationText] at hm
        cases hm
      | 1 =>
        refine .inl ⟨messages.length, t.number, rfl, ?_⟩
        rw [List.getElem?_append_right (Nat.le_refl _)]
        simp
      | j + 2 => simp at hadded
  closing t ht := by simp at ht

/-- The emission of the assignment is the last message. -/
theorem assignment (h : Tells messages operations none) (t : Triad) :
    Tells (messages ++ [assignmentText t]) operations (some t) where
  allocations := by
    simp [List.filter_append, h.allocations, isAllocation_assignmentText]
  followed {i k} hi := by
    rcases getElem?_append_cases hi with hearlier | ⟨j, hj, hlast⟩
    · exact h.followed_append _ hearlier
    · have htext := List.mem_singleton.mp (List.mem_of_getElem? hlast)
      have hother := isAllocation_assignmentText t
      rw [← htext, isAllocation_allocationText] at hother
      cases hother
  emissions := by
    simp [List.filter_append, h.emissions, isEmission_assignmentText]
  preceded {i m} hi hm := by
    rcases getElem?_append_cases hi with hearlier | ⟨j, rfl, hlast⟩
    · exact .inl (h.preceded_append _ hearlier hm)
    · have htext := List.mem_singleton.mp (List.mem_of_getElem? hlast)
      have hj : j < 1 := (List.getElem?_eq_some_iff.mp hlast).1
      refine .inr ⟨t, rfl, htext, ?_⟩
      simp only [List.length_append, List.length_singleton]
      omega
  closing t' ht' := by
    obtain rfl := Option.some.inj ht'
    exact List.getLast?_concat

end Tells

theorem message_reading (phrase : Precedence) (cursor : Cursor) :
    isAllocation (Event.reading phrase cursor).message = false ∧
      isEmission (Event.reading phrase cursor).message = false := by
  have hsum (text : String) : isAllocation ("add_expr at '" ++ text ++ "'") = false ∧
      isEmission ("add_expr at '" ++ text ++ "'") = false := by
    simp [isAllocation, isEmission, List.isPrefixOf]
  have hproduct (text : String) : isAllocation ("mul_expr at '" ++ text ++ "'") = false ∧
      isEmission ("mul_expr at '" ++ text ++ "'") = false := by
    simp [isAllocation, isEmission, List.isPrefixOf]
  cases phrase with
  | sum => exact hsum _
  | product => exact hproduct _

theorem message_operationTriad (n : Nat) (op : BinaryOperator) (left right : Operand) :
    (Event.emitted (operationTriad n op left right)).message =
      operationText (operationTriad n op left right) := by
  unfold operationText
  rw [String.append_assoc]
  rfl

/-- The messages of a log tell its triads. -/
theorem Logs.tells {log : List Event} {triads : List Triad} (h : Logs log triads) :
    Tells (log.map Event.message) triads none := by
  induction h with
  | nil => exact .nil
  | reading earlier phrase cursor ih =>
    obtain ⟨halloc, hemit⟩ := message_reading phrase cursor
    rw [List.map_append]
    exact ih.other halloc hemit
  | @operation log triads earlier op left right ih =>
    have hnext := ih.operation (t := operationTriad triads.length op left right) rfl
    rw [← message_operationTriad] at hnext
    rw [List.map_append]
    exact hnext

/-- The triads of a log are numbered from one, and each keeps its result under its own number. -/
theorem Logs.operationTriad {log : List Event} {triads : List Triad} (h : Logs log triads) {i : Nat}
    {t : Triad} (ht : triads[i]? = some t) :
    ∃ op left right, t = operationTriad i op left right := by
  induction h with
  | nil => simp at ht
  | reading _ _ _ ih => exact ih ht
  | @operation log triads earlier op left right ih =>
    rw [List.getElem?_append] at ht
    split at ht
    · exact ih ht
    · have hi := (List.getElem?_eq_some_iff.mp ht).1
      simp only [List.length_singleton] at hi
      have hlast : i = triads.length := by omega
      subst hlast
      simp at ht
      exact ⟨op, left, right, ht.symm⟩

/-! ## The log of a statement -/

/-- The triad that closes a statement after `n` others. -/
def closingTriad (n : Nat) (target value : Operand) : Triad :=
  { number := n + 1, operator := .assign, left := target, right := value, result? := none }

theorem message_closingTriad (n : Nat) (target value : Operand) :
    (Event.emitted (closingTriad n target value)).message =
      assignmentText (closingTriad n target value) := by
  unfold assignmentText
  exact String.append_empty

/-- The emission of the assignment completes log and listing. -/
theorem Session.emitAssignment_of_holds {s : Session} {triads : List Triad} (h : s.Holds triads)
    (target value : Operand) :
    (s.emitAssignment target value).events.toList =
        s.events.toList ++ [.emitted (closingTriad triads.length target value)] ∧
      (s.emitAssignment target value).listing.triads.toList =
        triads ++ [closingTriad triads.length target value] := by
  simp [Session.emitAssignment, Numbering.nextTriad, Listing.push, closingTriad, h.numbering,
    h.listing]

/-- The messages of reading a text, in order. -/
def readingMessages (source : String) : List String :=
  (parseTraced source).events.toList.map Event.message

/-- The messages of a reading, whether it succeeds or fails, tell the triads that it has emitted:
those of operations, numbered from one with their results, and after them the assignment, which is
there exactly when the reading succeeds. Then they are the triads of the listing. -/
theorem log_mirrors_emission (source : String) :
    ∃ (operations : List Triad) (closing? : Option Triad),
      Tells (readingMessages source) operations closing? ∧
      (statement.run { cursor := .start source.toList }).session.listing.triads.toList =
        operations ++ closing?.toList ∧
      (∀ i t, operations[i]? = some t →
        t.operator.isBinary ∧ t.number = i + 1 ∧ t.result? = some (i + 1)) ∧
      (∀ t ∈ closing?,
        t.operator = .assign ∧ t.number = operations.length + 1 ∧ t.result? = none) ∧
      (closing?.isSome ↔ ∃ l, parse source = .ok l) ∧
      ∀ l, parse source = .ok l → l.triads.toList = operations ++ closing?.toList := by
  have hnumbered : ∀ {log : List Event} {triads : List Triad}, Logs log triads → ∀ i t,
      triads[i]? = some t → t.operator.isBinary ∧ t.number = i + 1 ∧ t.result? = some (i + 1) := by
    intro log triads hlogs i t ht
    obtain ⟨op, left, right, rfl⟩ := hlogs.operationTriad ht
    exact ⟨op.isBinary_operator, rfl, rfl⟩
  have hmirrored := mirrored_assignment source.toList
  unfold readingMessages parse parseTraced
  cases hrun : statement.run { cursor := .start source.toList } with
  | done _ t =>
    obtain ⟨target, value, s, hread, rfl⟩ := run_statement_eq_done.mp hrun
    rw [hread] at hmirrored
    obtain ⟨triads, hlogs, hholds⟩ := hmirrored
    obtain ⟨hevents, hlisting⟩ := s.emitAssignment_of_holds hholds target value
    refine ⟨triads, some (closingTriad triads.length target value), ?_, hlisting,
      hnumbered hlogs, ?_, by simp, ?_⟩
    · dsimp only
      rw [hevents, List.map_append, List.map_singleton, message_closingTriad]
      exact hlogs.tells.assignment _
    · intro t ht
      obtain rfl := Option.some.inj ht
      exact ⟨rfl, rfl, rfl⟩
    · intro l hl
      rw [← Except.ok.inj hl]
      exact hlisting
  | failed f t =>
    rw [run_statement_eq_failed.mp hrun] at hmirrored
    obtain ⟨triads, hlogs, hholds⟩ := hmirrored
    refine ⟨triads, none, hlogs.tells, ?_, hnumbered hlogs, by simp, by simp, by simp⟩
    rw [Option.toList_none, List.append_nil]
    exact hholds.listing

example : readingMessages "a:=b*c+;" =
    ["add_expr at 'b*c+;'", "mul_expr at 'b*c+;'", "allocate temporary ^1", "emit 1 * (b c) -> ^1",
      "mul_expr at ';'"] := by
  decide +kernel

end ThreeAddress.Statement
