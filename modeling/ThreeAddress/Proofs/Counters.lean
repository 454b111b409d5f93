import ThreeAddress.Proofs.Points
import ThreeAddress.Proofs.Rejection

/-!
# The counters of a reading stay in range

Three numbers are counted while a statement is read: the depth of nesting, the temporaries and the
triads. At every point of the reading the depth is the number of brackets and signs around the
point, so it is positive wherever it is counted down, and it passes the limit only in a reading that
is refused for it. Each number that is given out is paid for by a character: a temporary and a triad
by the sign of their operation, the closing triad by the semicolon. So neither counter exceeds what
has been read.

All of this is shown relative to the session from which a part of the statement is read, for every
reader: first between a session and the one in which a reader succeeds (`Reader.Runs.onward`), then
for the points that it passes (`Reader.Passes.inOrder`).
-/
namespace ThreeAddress
open Text

namespace Grammar

/-! ## The length of a statement -/

mutual

/-- Each operation takes a sign and one more operand. -/
theorem Phrase.operations_le {k : Kind} :
    ∀ p : Phrase k, 2 * p.expr.operations + 1 ≤ p.text.length
  | .word w => by
    obtain ⟨c, cs, hw, -⟩ := w.exists_text_eq_cons
    rw [Phrase.text, hw]
    exact Nat.succ_le_succ (Nat.zero_le _)
  | .bracketed inner => by
    have hinner := Phrase.operations_le inner
    simp only [Phrase.expr, Phrase.text, List.length_cons, List.length_append]
    omega
  | .signed inner => by
    have hinner := Phrase.operations_le inner
    simp only [Phrase.expr, Phrase.text, List.length_cons, Expr.operations]
    omega
  | .chain first rest => by
    have hfirst := Phrase.operations_le first
    have hrest := Tail.operations_le first.expr rest
    simp only [Phrase.expr, Phrase.text, List.length_append]
    omega

theorem Tail.operations_le {level : Precedence} (left : Expr) :
    ∀ q : Tail level, 2 * (q.expr left).operations ≤ 2 * left.operations + q.text.length
  | .done => Nat.le_add_right _ _
  | .more op _ right rest => by
    have hright := Phrase.operations_le right
    have hrest := Tail.operations_le (.operation op left right.expr) rest
    simp only [Tail.expr, Tail.text, List.length_cons, List.length_append,
      Expr.operations] at hrest ⊢
    omega

end

theorem Sentence.size_le (d : Sentence) : 2 * d.assignment.listing.size + 3 ≤ d.text.length := by
  obtain ⟨c, cs, htarget, -⟩ := d.target.exists_text_eq_cons
  have hvalue := Phrase.operations_le d.value
  have hlength : d.text.length = cs.length + 1 + (2 + (d.value.text.length + 1)) := by
    rw [Sentence.text, List.length_append, List.length_append, List.length_append, htarget]
    rfl
  rw [Listing.size, Assignment.size_triads_listing, hlength]
  show 2 * (d.value.expr.operations + 1) + 3 ≤ _
  omega

end Grammar

namespace Statement

/-! ## From one session to a later one -/

namespace Session
variable {text : List Char} {s t u : Session}

/-- A later session of a reading of the text. A number is given out only after a character was
moved over, so a counter and what is unread do not grow together. -/
structure Onward (text : List Char) (s t : Session) : Prop where
  stands : t.cursor.StandsIn text
  unread : t.unread ≤ s.unread
  temporaries : t.numbering.temporaries + t.unread ≤ s.numbering.temporaries + s.unread
  triads : t.numbering.triads + t.unread ≤ s.numbering.triads + s.unread

theorem Onward.refl (hs : s.cursor.StandsIn text) : s.Onward text s :=
  ⟨hs, Nat.le_refl _, Nat.le_refl _, Nat.le_refl _⟩

theorem Onward.trans (h : s.Onward text t) (h' : t.Onward text u) : s.Onward text u :=
  ⟨h'.stands, h'.unread.trans h.unread, h'.temporaries.trans h.temporaries,
    h'.triads.trans h.triads⟩

/-- Moving on in the text counts nothing. -/
theorem Onward.of_move (hs : s.cursor.StandsIn text) {cursor : Cursor}
    (h : s.cursor.MovesTo cursor) : s.Onward text { s with cursor } := by
  have hunread : cursor.rest.length ≤ s.unread := by
    obtain ⟨run, hrest, -⟩ := h
    rw [Session.unread, hrest, List.length_append]
    exact Nat.le_add_left _ _
  exact ⟨hs.move h, hunread, Nat.add_le_add_left hunread _, Nat.add_le_add_left hunread _⟩

/-- Going up or down a level moves nothing. -/
theorem Onward.setDepth (h : s.Onward text t) (depth : Nat) : s.Onward text { t with depth } :=
  ⟨h.stands, h.unread, h.temporaries, h.triads⟩

/-- A character that was moved over before `s` pays for one more number of each kind. -/
theorem Onward.paid (h : s.Onward text t) {u t' : Session} (hsign : s.unread < u.unread)
    (hnumbering : s.numbering = u.numbering) (hcursor : t'.cursor = t.cursor)
    (htemporaries : t'.numbering.temporaries ≤ t.numbering.temporaries + 1)
    (htriads : t'.numbering.triads ≤ t.numbering.triads + 1) : u.Onward text t' := by
  obtain ⟨hstands, hunread, hbefore, hbefore'⟩ := h
  rw [hnumbering] at hbefore hbefore'
  have hsame : t'.unread = t.unread := by rw [Session.unread, hcursor, Session.unread]
  refine ⟨hcursor ▸ hstands, ?_, ?_, ?_⟩
  · omega
  · omega
  · omega

end Session

namespace Reader
variable {α : Type} {text : List Char} {s t : Session}

/-! ## Readers that succeed -/

/-- Behind an opening, the text is shorter and the depth one more. -/
theorem onward_behind {opening : Opening} {cs : List Char} (hs : s.cursor.StandsIn text)
    (hrest : s.cursor.rest = opening.char :: cs) : s.Onward text (s.behind opening cs) :=
  (Session.Onward.of_move hs (Cursor.movesTo_past hrest)).setDepth _

/-- A round of a chain: its sign pays for the numbers of its triad. -/
theorem onward_emitOperation {level : Precedence} {operator : Operator} {cursor : Cursor}
    (hsign : nextOperator? level s.cursor = some (operator, cursor))
    (hright : Session.Onward text { s with cursor } t) (left right : Operand) :
    s.Onward text (t.emitOperation operator left right).2 :=
  hright.paid (rest_of_nextOperator? hsign) rfl rfl le_rfl le_rfl

/-- A reader that succeeds comes to a later session, at the depth from which it started. -/
theorem Runs.onward {r : Reader α} {o : Outcome α} (h : Runs r s o)
    (hs : s.cursor.StandsIn text) {a : α} (ho : o = .done a t) :
    s.Onward text t ∧ t.depth = s.depth := by
  induction h generalizing t with
  | noValue | missing | refuse | first | tooDeep | operand => cases ho
  | pure | peek? | atEnd | ended =>
    cases ho
    exact ⟨.refl hs, rfl⟩
  | announce =>
    cases ho
    exact ⟨⟨hs, Nat.le_refl _, Nat.le_refl _, Nat.le_refl _⟩, rfl⟩
  | skip comes =>
    cases ho
    exact ⟨.of_move hs (Cursor.movesTo_past comes), rfl⟩
  | @word _ p _ _ s =>
    cases ho
    exact ⟨.of_move hs (s.cursor.movesTo_takeWhile p), rfl⟩
  | expect comes =>
    cases ho
    exact ⟨.of_move hs (Cursor.movesTo_of_acceptAll? comes), rfl⟩
  | next done runs ihfirst ihnext =>
    obtain ⟨hfirst, hdepth⟩ := ihfirst hs rfl
    obtain ⟨hnext, hdepth'⟩ := ihnext hfirst.stands ho
    exact ⟨hfirst.trans hnext, hdepth'.trans hdepth⟩
  | otherwise other runs ih => exact ih hs ho
  | inside comes room runs ih =>
    obtain ⟨u, rfl, rfl⟩ := leave_eq_done.mp ho
    have hbehind := onward_behind hs comes
    obtain ⟨hinside, hdepth⟩ := ih hbehind.stands rfl
    exact ⟨(hbehind.trans hinside).setDepth _, congrArg (· - 1) hdepth⟩
  | @round _ _ left right _ _ _ _ _ sign done runs ihoperand ihround =>
    obtain ⟨hright, hdepth⟩ := ihoperand (hs.move (movesTo_of_nextOperator? sign)) rfl
    have hround := onward_emitOperation sign hright left right
    obtain ⟨hrest, hdepth'⟩ := ihround hround.stands ho
    exact ⟨hround.trans hrest, hdepth'.trans hdepth⟩

theorem onward_of_done {r : Reader α} (hs : s.cursor.StandsIn text) {a : α}
    (h : r.run s = .done a t) : s.Onward text t ∧ t.depth = s.depth :=
  (r.runs s).onward hs h

/-- A single act that fails leaves the session as it was. -/
theorem eq_of_isAct_of_failed {r : Reader α} (hsingle : r.isAct) {f : Failure}
    (h : r.run s = .failed f t) : t = s := by
  have hruns := r.runs s
  generalize ho : r.run s = o at hruns
  rw [h] at ho
  cases hruns with
  | noValue | missing | refuse =>
    cases ho
    rfl
  | first | next | otherwise | tooDeep | inside | ended | operand | round => cases hsingle
  | _ => cases ho

/-- A single act comes to a later session of the same depth, also where it fails. -/
theorem onward_of_isAct {r : Reader α} (hsingle : r.isAct) (hs : s.cursor.StandsIn text) :
    s.Onward text (r.run s).session ∧ (r.run s).session.depth = s.depth := by
  cases hrun : r.run s with
  | done a t => exact onward_of_done hs hrun
  | failed f t =>
    obtain rfl := eq_of_isAct_of_failed hsingle hrun
    exact ⟨.refl hs, rfl⟩

/-! ## Points -/

/-- What holds of a point that the reader passes from the session `s` on. -/
structure InOrder (text : List Char) (r : Reader α) (s : Session) (p : Point) : Prop where
  onward : s.Onward text p.session
  depth : p.session.depth = s.depth + p.enclosing.length
  leaving : p.leaving → p.enclosing ≠ []
  openings : ∀ c ∈ p.enclosing, c.StandsIn text ∧ (c.peek? = some '(' ∨ c.peek? = some '-')
  /-- The point lies behind the innermost opening, and each opening behind the next one out. -/
  ordered : (p.session.unread :: p.enclosing.map (·.rest.length)).Pairwise (· < ·)
  within : ∀ c ∈ p.enclosing, c.rest.length ≤ s.unread
  limit : s.depth ≤ nestingLimit → nestingLimit < p.session.depth →
    p.session.depth = nestingLimit + 1 ∧
      ∃ f, f.cause = .tooDeep ∧ r.run s = .failed f p.session

namespace InOrder
variable {β : Type} {r : Reader α} {r' : Reader β} {p : Point}

/-- A point that nothing more encloses. -/
theorem plain (h : s.Onward text t) (hdepth : t.depth = s.depth) :
    r.InOrder text s { session := t } where
  onward := h
  depth := hdepth
  leaving := by simp
  openings := by simp
  ordered := List.pairwise_singleton _ _
  within := by simp
  limit hlow hhigh := absurd hhigh (by rw [hdepth]; omega)

/-- A point of a part that is read later, from a session of the same depth. -/
theorem later (hp : r'.InOrder text t p) (h : s.Onward text t) (hdepth : t.depth = s.depth)
    (hfails : ∀ {f u}, r'.run t = .failed f u → r.run s = .failed f u) : r.InOrder text s p where
  onward := h.trans hp.onward
  depth := by rw [hp.depth, hdepth]
  leaving := hp.leaving
  openings := hp.openings
  ordered := hp.ordered
  within c hc := (hp.within c hc).trans h.unread
  limit hlow hhigh := by
    obtain ⟨htop, f, hcause, hrun⟩ := hp.limit (by rwa [hdepth]) hhigh
    exact ⟨htop, f, hcause, hfails hrun⟩

/-- A point of a part that is read one level deeper, behind an opening. -/
theorem enclose {opening : Opening} {cs : List Char} (hs : s.cursor.StandsIn text)
    (hrest : s.cursor.rest = opening.char :: cs) (hp : r'.InOrder text (s.behind opening cs) p)
    (hlimit : s.depth ≤ nestingLimit → nestingLimit < p.session.depth →
      p.session.depth = nestingLimit + 1 ∧
        ∃ f, f.cause = .tooDeep ∧ r.run s = .failed f p.session) :
    r.InOrder text s { p with enclosing := p.enclosing ++ [s.cursor] } where
  onward := (onward_behind hs hrest).trans hp.onward
  depth := by
    rw [hp.depth, Session.depth_behind, List.length_append, List.length_singleton]
    omega
  leaving _ := List.append_ne_nil_of_right_ne_nil _ (List.cons_ne_nil _ _)
  openings c hc := by
    obtain hc | hc := List.mem_append.mp hc
    · exact hp.openings c hc
    · obtain rfl := List.mem_singleton.mp hc
      refine ⟨hs, ?_⟩
      rw [Cursor.peek?, hrest]
      cases opening with
      | bracket => exact .inl rfl
      | sign => exact .inr rfl
  ordered := by
    have hbehind : (s.behind opening cs).unread < s.cursor.rest.length := by
      rw [Session.unread, Session.rest_behind, hrest]
      exact Nat.lt_succ_self _
    rw [List.map_append, ← List.cons_append, List.pairwise_append]
    refine ⟨hp.ordered, List.pairwise_singleton _ _, ?_⟩
    intro n hn m hm
    obtain rfl : m = s.cursor.rest.length := List.mem_singleton.mp hm
    obtain rfl | hn := List.mem_cons.mp hn
    · exact hp.onward.unread.trans_lt hbehind
    · obtain ⟨c, hc, rfl⟩ := List.mem_map.mp hn
      exact (hp.within c hc).trans_lt hbehind
  within c hc := by
    obtain hc | hc := List.mem_append.mp hc
    · exact (hp.within c hc).trans (onward_behind hs hrest).unread
    · rw [List.mem_singleton.mp hc]
      exact le_rfl
  limit := hlimit

/-- Where something encloses the point, there is a level to leave. -/
theorem toLeave (hp : r.InOrder text s p) (hne : p.enclosing ≠ []) :
    r.InOrder text s { p with leaving := true } :=
  ⟨hp.onward, hp.depth, fun _ => hne, hp.openings, hp.ordered, hp.within, hp.limit⟩

end InOrder

/-- Every point that a reader passes is in order. -/
theorem Passes.inOrder {r : Reader α} {p : Point} (h : r.Passes s p)
    (hs : s.cursor.StandsIn text) : r.InOrder text s p := by
  induction h with
  | start r s => exact .plain (.refl hs) rfl
  | act single s =>
    obtain ⟨hact, hdepth⟩ := onward_of_isAct single hs
    exact .plain hact hdepth
  | first passes ih =>
    exact (ih hs).later (.refl hs) rfl fun hfailed => run_bind_eq_failed.mpr (.inl hfailed)
  | @next _ _ _ _ _ t a _ done passes ih =>
    obtain ⟨hfirst, hdepth⟩ := onward_of_done hs done
    exact (ih hfirst.stands).later hfirst hdepth fun hfailed =>
      run_bind_eq_failed.mpr (.inr ⟨a, t, done, hfailed⟩)
  | otherwise other passes ih =>
    exact (ih hs).later (.refl hs) rfl fun hfailed => (run_enclosed_of_ne other).trans hfailed
  | opened comes => exact .plain (.of_move hs (Cursor.movesTo_past comes)) rfl
  | @entered _ opening inside _ s cs comes =>
    have hbehind := (onward_behind hs comes).stands
    refine .enclose hs comes (.plain (r := inside) (.refl hbehind) rfl) fun hlow hhigh => ?_
    -- The only point beyond the limit: the level that was counted is refused at once.
    have hfull : s.depth = nestingLimit := Nat.le_antisymm hlow (Nat.le_of_lt_succ hhigh)
    exact ⟨congrArg (· + 1) hfull, _, rfl, run_enclosed_of_le comes hfull.ge⟩
  | inside comes room passes ih =>
    have hp := ih (onward_behind hs comes).stands
    refine hp.enclose hs comes fun _ hhigh => ?_
    obtain ⟨htop, f, hcause, hfailed⟩ := hp.limit room hhigh
    refine ⟨htop, f, hcause, ?_⟩
    rw [run_enclosed_of_lt comes room, hfailed]
    rfl
  | @leaving _ _ inside _ _ _ _ _ comes room done =>
    obtain ⟨hinside, hdepth⟩ := onward_of_done (onward_behind hs comes).stands done
    refine InOrder.toLeave (.enclose hs comes (.plain (r := inside) hinside hdepth)
      fun _ hhigh => ?_) (List.cons_ne_nil _ _)
    exact absurd (hhigh.trans_eq hdepth) (Nat.not_lt_of_le room)
  | @left _ opening inside otherwise s t _ a comes room done =>
    have hrun : (enclosed opening inside otherwise).run s = .done a { t with depth := t.depth - 1 } :=
      (run_enclosed_eq_done comes).mpr ⟨room, t, done, rfl⟩
    obtain ⟨hend, hdepth⟩ := onward_of_done hs hrun
    exact .plain hend hdepth
  | operand sign passes ih =>
    have hmoved := Session.Onward.of_move hs (movesTo_of_nextOperator? sign)
    exact (ih hmoved.stands).later hmoved rfl fun hfailed => run_rounds_of_failed _ sign hfailed
  | @round _ _ left right _ _ _ _ _ sign done passes ih =>
    obtain ⟨hright, hdepth⟩ := onward_of_done (hs.move (movesTo_of_nextOperator? sign)) done
    have hround := onward_emitOperation sign hright left right
    exact (ih hround.stands).later hround hdepth fun hfailed =>
      (run_rounds_of_done _ sign done).trans hfailed

end Reader

/-! ## Statements -/

/-- The semicolon pays for the number of the closing triad. -/
theorem onward_emitAssignment {text : List Char} {s t : Session} (hs : s.cursor.StandsIn text)
    {target value : Operand} (h : assignment.run s = .done (target, value) t) :
    s.Onward text (t.emitAssignment target value) ∧
      (t.emitAssignment target value).depth = s.depth := by
  obtain ⟨_, s₁, htarget, h⟩ := Reader.run_bind_eq_done.mp h
  obtain ⟨_, s₂, hassign, h⟩ := Reader.run_bind_eq_done.mp h
  obtain ⟨_, s₃, hvalue, h⟩ := Reader.run_bind_eq_done.mp h
  obtain ⟨_, s₄, hending, h⟩ := Reader.run_bind_eq_done.mp h
  obtain ⟨hback₁, hdepth₁⟩ := Reader.onward_of_done hs htarget
  obtain ⟨hback₂, hdepth₂⟩ := Reader.onward_of_done hback₁.stands hassign
  obtain ⟨hback₃, hdepth₃⟩ := Reader.onward_of_done hback₂.stands hvalue
  obtain ⟨hback₄, hdepth₄⟩ := Reader.onward_of_done hback₃.stands hending
  obtain ⟨cursor, haccept, rfl⟩ := Reader.run_expect_eq_done.mp hending
  rw [Reader.run_peek?_bind] at h
  split at h
  · cases h
    have hsemicolon : cursor.rest.length < s₃.unread := by
      rw [Session.unread, Cursor.rest_of_acceptAll? haccept]
      exact Nat.lt_succ_self _
    have hclosed : s₃.Onward text (Session.emitAssignment { s₃ with cursor } target value) :=
      (Session.Onward.refl hback₄.stands).paid hsemicolon rfl rfl (Nat.le_succ _) le_rfl
    exact ⟨((hback₁.trans hback₂).trans hback₃).trans hclosed,
      hdepth₃.trans (hdepth₂.trans hdepth₁)⟩
  · cases h

/-- The counters at a point of the reading of a source. -/
structure InRange (source : String) (p : Point) : Prop where
  /-- The depth counts the brackets and signs around the point. -/
  depth : p.session.depth = p.enclosing.length
  openings : ∀ c ∈ p.enclosing,
    c.StandsIn source.toList ∧ (c.peek? = some '(' ∨ c.peek? = some '-')
  /-- The point lies behind the innermost of them, and each of them behind the next one out. -/
  ordered : (p.session.unread :: p.enclosing.map (·.rest.length)).Pairwise (· < ·)
  depth_le : p.session.depth ≤ 257
  /-- Beyond 256 the reading has just failed. -/
  refused : 256 < p.session.depth → ∃ f : Failure, f.cause = .tooDeep ∧
    statement.run { cursor := .start source.toList } = .failed f p.session ∧
    parse source = .error f
  /-- The depth is never counted down at zero. -/
  leaving : p.leaving → 0 < p.session.depth
  counted : ∃ consumed, source.toList = consumed ++ p.session.cursor.rest ∧
    p.session.numbering.temporaries ≤ consumed.length ∧
    p.session.numbering.triads ≤ consumed.length
  /-- A number type that can hold the length of the source can hold the counters. -/
  representable : ∀ bound, source.length < bound →
    p.session.numbering.temporaries < bound ∧ p.session.numbering.triads < bound

/-- The numbers given out so far are at most the characters read so far. -/
theorem Session.Onward.counted {text : List Char} {u : Session}
    (h : Session.Onward text { cursor := .start text } u) :
    ∃ consumed, text = consumed ++ u.cursor.rest ∧
      u.numbering.temporaries ≤ consumed.length ∧ u.numbering.triads ≤ consumed.length := by
  obtain ⟨⟨consumed, htext, -⟩, -, htemporaries, htriads⟩ := h
  have hlength : text.length = consumed.length + u.unread := by
    rw [htext, List.length_append]
    rfl
  have hstart : Session.unread { cursor := .start text } = text.length := rfl
  rw [hstart, hlength] at htemporaries htriads
  refine ⟨consumed, htext, ?_, ?_⟩
  · simpa using htemporaries
  · simpa using htriads

/-- At every point of the reading the counters are in range. -/
theorem inRange_of_passes {source : String} {p : Point}
    (h : PassesInStatement { cursor := .start source.toList } p) : InRange source p := by
  have hp : assignment.InOrder source.toList { cursor := .start source.toList } p := by
    have hstart := Cursor.standsIn_start source.toList
    cases h with
    | parts passes => exact passes.inOrder hstart
    | closed done =>
      obtain ⟨hclosed, hdepth⟩ := onward_emitAssignment hstart done
      exact .plain hclosed hdepth
  have hdepth : p.session.depth = p.enclosing.length := hp.depth.trans (Nat.zero_add _)
  have hrefused := hp.limit (Nat.zero_le _)
  obtain ⟨consumed, htext, htemporaries, htriads⟩ := hp.onward.counted
  have hconsumed : consumed.length ≤ source.length := by
    rw [← String.length_toList, htext, List.length_append]
    exact Nat.le_add_right _ _
  refine ⟨hdepth, hp.openings, hp.ordered, ?_, ?_, ?_, ⟨consumed, htext, htemporaries, htriads⟩, ?_⟩
  · by_cases hhigh : nestingLimit < p.session.depth
    · exact (hrefused hhigh).1.le
    · exact (Nat.le_of_not_lt hhigh).trans (Nat.le_succ _)
  · intro hhigh
    obtain ⟨-, f, hcause, hfailed⟩ := hrefused hhigh
    have hrun := run_statement_eq_failed.mpr hfailed
    exact ⟨f, hcause, hrun, parse_eq_error_iff_run.mpr ⟨_, hrun⟩⟩
  · intro hleaving
    rw [hdepth]
    exact List.length_pos_iff.mpr (hp.leaving hleaving)
  · intro bound hbound
    omega

/-- A reading passes its start and its end, and at each point that it passes the counters are in
range. A listing of `n` triads takes a source of at least `2 * n + 3` characters. -/
theorem reading_stays_in_range (source : String) :
    (∀ s, (∃ p, PassesInStatement s p ∧ p.session = s) ∧
      ∃ p, PassesInStatement s p ∧ p.session = (statement.run s).session) ∧
    (∀ p, PassesInStatement { cursor := .start source.toList } p → InRange source p) ∧
    ∀ l, parse source = .ok l → 2 * l.size + 3 ≤ source.length := by
  refine ⟨exists_passesInStatement_ends, fun p hp => inRange_of_passes hp, ?_⟩
  intro l hl
  obtain ⟨d, htext, -, rfl⟩ := parse_eq_ok_iff.mp hl
  rw [← String.length_toList, ← htext]
  exact d.size_le

end Statement
end ThreeAddress
