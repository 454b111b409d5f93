import ThreeAddress.Proofs.Grammar

/-!
# The operands of statements

An operand that reading a statement makes is the term of a word or a temporary, with its sign
changed any number of times. What holds of the terms of words and is kept by changes of sign holds
of all operands in the listing of a statement, by induction on `Operand.Read`.
-/
namespace ThreeAddress

open Grammar

/-- The operand is one that reading a statement makes. -/
inductive Operand.Read : Operand → Prop where
  | word (w : Word) : Read w.term.operand
  | temporary (id : Nat) : Read (.temporary id)
  | negated {operand : Operand} (inner : Read operand) : Read (.negated operand)

/-- The triad is one that reading a statement makes. The change of sign has no triad of its own. -/
structure Triad.Read (t : Triad) : Prop where
  operator : t.operator ≠ .negate
  left : t.left.Read
  right : t.right.Read

theorem BinaryOperator.operator_ne_negate (op : BinaryOperator) : op.operator ≠ .negate := by
  cases op <;> decide

namespace Expr

/-- All terms in the expression are terms of words. -/
inductive Worded : Expr → Prop where
  | term (w : Word) : Worded (.term w.term)
  | negation {e : Expr} (inner : Worded e) : Worded (.negation e)
  | operation (op : BinaryOperator) {left right : Expr} (left_worded : Worded left)
      (right_worded : Worded right) : Worded (.operation op left right)

theorem Worded.read_operand {e : Expr} (h : e.Worded) (n : Nat) : (e.operand n).Read := by
  induction h with
  | term w => exact .word w
  | negation _ ih => exact .negated ih
  | operation => exact .temporary _

theorem Worded.read_triads {e : Expr} (h : e.Worded) (n : Nat) : ∀ t ∈ e.triads n, t.Read := by
  induction h generalizing n with
  | term w =>
    intro t ht
    cases ht
  | negation _ ih => exact ih n
  | operation op hleft hright ihl ihr =>
    intro t ht
    rw [triads, List.mem_append, List.mem_append, List.mem_singleton] at ht
    rcases ht with (ht | ht) | rfl
    · exact ihl n t ht
    · exact ihr _ t ht
    · exact ⟨op.operator_ne_negate, hleft.read_operand n, hright.read_operand _⟩

end Expr

namespace Grammar

mutual

theorem Phrase.worded_expr {k : Kind} : ∀ p : Phrase k, p.expr.Worded
  | .word w => .term w
  | .bracketed inner => inner.worded_expr
  | .signed inner => .negation inner.worded_expr
  | .chain first rest => rest.worded_expr first.worded_expr

theorem Tail.worded_expr {level : Precedence} {left : Expr} (h : left.Worded) :
    ∀ q : Tail level, (q.expr left).Worded
  | .done => h
  | .more op _ right rest => rest.worded_expr (.operation op h right.worded_expr)

end

theorem Denotes.read {source : String} {a : Assignment} (h : Denotes source a) :
    ∀ t ∈ a.listing.triads.toList, t.Read := by
  obtain ⟨d, -, rfl⟩ := h
  intro t ht
  rw [Assignment.toList_triads_listing, Assignment.triads, List.mem_append,
    List.mem_singleton] at ht
  have hvalue : d.assignment.value.Worded := d.value.worded_expr
  rcases ht with ht | rfl
  · exact hvalue.read_triads 0 t ht
  · refine ⟨?_, .word d.target, hvalue.read_operand 0⟩
    show Operator.assign ≠ .negate
    decide

end Grammar
end ThreeAddress
