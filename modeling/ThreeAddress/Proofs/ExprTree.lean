import ThreeAddress.Proofs.Syntax
import ThreeAddress.Proofs.Unfolding

/-!
# Trees of expressions

An operation is a branch over the trees of its operands; a term or a change of sign is a leaf with
the operand's text. `resolves_of_get?` says that the recursion of `Unfolding` gives this tree for
every operand that stands for the expression, by induction on the expression.

A change of sign is part of an operand's text, so an operation directly under one is in no tree
above it. `Expr.negated` lists these operations. Their numbers ascend, and each operation of the
expression is in the tree of the expression itself or in that of one of them.
-/
namespace ThreeAddress

open Expansion

/-- An expression in a statement, with the number of triads before its own. -/
structure Occurrence where
  before : Nat
  expr : Expr

namespace Expr

def isOperation : Expr → Bool
  | operation .. => true
  | _ => false

/-- The labels of an expression whose triads follow `n` others. -/
def tree (n : Nat) : Expr → Tree String
  | term t => .leaf t.operand.text
  | negation e => .leaf (e.negation.operand n).text
  | operation op left right =>
      .node (triadOf n op left right).label (left.tree n) (right.tree (n + left.operations))

/-- The numbers of the operations in the tree of an expression. -/
def reached (n : Nat) : Expr → List Nat
  | term _ => []
  | negation _ => []
  | operation _ left right =>
      (n + left.operations + right.operations + 1) ::
        (left.reached n ++ right.reached (n + left.operations))

/-- The operations that stand immediately under a change of sign, operands before the operation
that they belong to. -/
def negated (n : Nat) : Expr → List Occurrence
  | term _ => []
  | negation e => e.negated n ++ if e.isOperation then [⟨n, e⟩] else []
  | operation _ left right => left.negated n ++ right.negated (n + left.operations)

theorem operand_of_isOperation {e : Expr} (h : e.isOperation) (n : Nat) :
    e.operand n = .temporary (n + e.operations) := by
  cases e with
  | operation op left right => simp [operand, operations, Nat.add_assoc]
  | term | negation => cases h

theorem temporary?_operand_of_not_isOperation {e : Expr} (h : ¬e.isOperation) (n : Nat) :
    (e.operand n).temporary? = none := by
  cases e with
  | term t => cases t <;> rfl
  | negation e => rfl
  | operation => exact absurd rfl h

end Expr

namespace Occurrence

/-- The number of the last triad of the expression, which is the expression's own if it is an
operation. -/
def number (o : Occurrence) : Nat := o.before + o.expr.operations

def tree (o : Occurrence) : Tree String := o.expr.tree o.before

def reached (o : Occurrence) : List Nat := o.expr.reached o.before

end Occurrence

/-! ## The recursion from a place -/

/-- The recursion ends with a tree that has these labels and numbers. -/
def Gives {l : Listing} (r : Except Defect (Tree (Origin l))) (labels : Tree String)
    (ns : List Nat) : Prop :=
  ∃ t, r = .ok t ∧ t.map Origin.label = labels ∧ numbers t = ns

section
variable {l : Listing} {path : List Nat}

theorem gives_leaf {below : Fin l.triads.size → Except Defect (Tree (Origin l))}
    {place : Fin l.triads.size} {side : Side}
    (h : ((l.triadAt place).operand side).target? = none) :
    Gives (unfoldOperand below place side) (.leaf ((l.triadAt place).operand side).text) [] := by
  refine ⟨.leaf (.operand place side), ?_, rfl, rfl⟩
  rw [unfoldOperand, h]

theorem gives_unfold {place : Fin l.triads.size} {left right : Tree String} {ns ms : List Nat}
    (hfresh : (l.triadAt place).number ∉ path)
    (hleft : Gives (unfoldOperand (Expansion.unfold l ((l.triadAt place).number :: path)) place .left)
      left ns)
    (hright : Gives
      (unfoldOperand (Expansion.unfold l ((l.triadAt place).number :: path)) place .right) right ms) :
    Gives (Expansion.unfold l path place) (.node (l.triadAt place).label left right)
      ((l.triadAt place).number :: (ns ++ ms)) := by
  obtain ⟨tl, hl, rfl, rfl⟩ := hleft
  obtain ⟨tr, hr, rfl, rfl⟩ := hright
  refine ⟨.node (.triad place) tl tr, ?_, rfl, rfl⟩
  rw [Expansion.unfold, dif_neg hfresh, hl, hr]
  rfl

/-- Operands that stand for an expression have its tree, while all unfinished triads come later. -/
def Resolves (l : Listing) (n : Nat) (e : Expr) : Prop :=
  ∀ (path : List Nat) (place : Fin l.triads.size) (side : Side),
    (∀ number ∈ path, n + e.operations < number) →
    (l.triadAt place).operand side = e.operand n →
    Gives (unfoldOperand (Expansion.unfold l path) place side) (e.tree n) (e.reached n)

/-- The triad of an operation has the trees of the operands below it. -/
theorem gives_unfold_triadOf {op : BinaryOperator} {left right : Expr} {n : Nat}
    (hleft : Resolves l n left) (hright : Resolves l (n + left.operations) right)
    {place : Fin l.triads.size} (hplace : l.triadAt place = Expr.triadOf n op left right)
    (hpath : ∀ number ∈ path, n + (Expr.operation op left right).operations < number) :
    Gives (Expansion.unfold l path place) ((Expr.operation op left right).tree n)
      ((Expr.operation op left right).reached n) := by
  simp only [Expr.operations] at hpath
  have hnumber : (l.triadAt place).number = n + left.operations + right.operations + 1 := by
    rw [hplace]
    rfl
  have hfresh : (l.triadAt place).number ∉ path := by
    intro hmem
    have := hpath _ hmem
    omega
  have hlater : ∀ number ∈ (l.triadAt place).number :: path,
      n + left.operations + right.operations < number := by
    intro number hmem
    rcases List.mem_cons.mp hmem with rfl | hmem
    · omega
    · have := hpath _ hmem
      omega
  have hbelow : ∀ number ∈ (l.triadAt place).number :: path, n + left.operations < number := by
    intro number hmem
    have := hlater number hmem
    omega
  have hgives := gives_unfold hfresh (hleft _ place .left hbelow (by rw [hplace]; rfl))
    (hright _ place .right hlater (by rw [hplace]; rfl))
  rwa [hplace] at hgives

/-- A listing that has the triads of an expression resolves it. -/
theorem resolves_of_get? {e : Expr} {n : Nat} (hl : ∀ t ∈ e.triads n, l.get? t.number = some t) :
    Resolves l n e := by
  induction e generalizing n with
  | term t =>
    intro path place side hpath h
    have htarget : ((l.triadAt place).operand side).target? = none := by
      rw [h]
      cases t <;> rfl
    change Gives _ (.leaf ((Expr.term t).operand n).text) []
    rw [← h]
    exact gives_leaf htarget
  | negation e =>
    intro path place side hpath h
    have htarget : ((l.triadAt place).operand side).target? = none := by
      rw [h]
      rfl
    change Gives _ (.leaf (e.negation.operand n).text) []
    rw [← h]
    exact gives_leaf htarget
  | operation op left right ihl ihr =>
    intro path place side hpath h
    simp only [Expr.triads, List.mem_append, List.mem_singleton] at hl
    have htarget : ((l.triadAt place).operand side).target? =
        some (Expr.triadOf n op left right).number := by
      rw [h]
      rfl
    obtain ⟨producer, hindex, hproducer⟩ := Option.map_eq_some_iff.mp (hl _ (.inr rfl))
    have henter : unfoldOperand (Expansion.unfold l path) place side =
        Expansion.unfold l path producer := by
      simp only [unfoldOperand, htarget, hindex]
    rw [henter]
    exact gives_unfold_triadOf (ihl fun t ht => hl t (.inl (.inl ht)))
      (ihr fun t ht => hl t (.inl (.inr ht))) hproducer hpath

end

/-! ## Operations under a change of sign -/

namespace Expr

theorem operations_pos {e : Expr} (h : e.isOperation) : 0 < e.operations := by
  cases e with
  | operation op left right => exact Nat.succ_pos _
  | term | negation => cases h

theorem mem_negated_negation {e : Expr} {n : Nat} {o : Occurrence} :
    o ∈ e.negation.negated n ↔ o ∈ e.negated n ∨ e.isOperation ∧ o = ⟨n, e⟩ := by
  rw [negated, List.mem_append]
  by_cases h : e.isOperation <;> simp [h]

theorem number_of_mem_negated {e : Expr} {n : Nat} {o : Occurrence} (h : o ∈ e.negated n) :
    n < o.number ∧ o.number ≤ n + e.operations ∧
      (e.isOperation → o.number < n + e.operations) := by
  induction e generalizing n with
  | term => cases h
  | negation e ih =>
    rcases mem_negated_negation.mp h with h | ⟨hop, rfl⟩
    · exact ⟨(ih h).1, (ih h).2.1, fun hop => by cases hop⟩
    · have := operations_pos hop
      exact ⟨Nat.lt_add_of_pos_right this, Nat.le_refl _, fun hop => by cases hop⟩
  | operation op left right ihl ihr =>
    simp only [operations]
    rcases List.mem_append.mp h with h | h
    · have := ihl h
      omega
    · have := ihr h
      omega

/-- An operation under a change of sign has its triads among those of the expression. -/
theorem triads_of_mem_negated {e : Expr} {n : Nat} {o : Occurrence} (h : o ∈ e.negated n) :
    o.expr.isOperation ∧ ∀ t ∈ o.expr.triads o.before, t ∈ e.triads n := by
  induction e generalizing n with
  | term => cases h
  | negation e ih =>
    rcases mem_negated_negation.mp h with h | ⟨hop, rfl⟩
    · exact ih h
    · exact ⟨hop, fun t ht => ht⟩
  | operation op left right ihl ihr =>
    simp only [triads, List.mem_append]
    rcases List.mem_append.mp h with h | h
    · exact ⟨(ihl h).1, fun t ht => .inl (.inl ((ihl h).2 t ht))⟩
    · exact ⟨(ihr h).1, fun t ht => .inl (.inr ((ihr h).2 t ht))⟩

theorem pairwise_number_negated (e : Expr) (n : Nat) :
    ((e.negated n).map Occurrence.number).Pairwise (· < ·) := by
  induction e generalizing n with
  | term => exact .nil
  | negation e ih =>
    rw [negated]
    by_cases hop : e.isOperation
    · rw [if_pos hop, List.map_append, List.pairwise_append]
      refine ⟨ih n, List.pairwise_singleton _ _, ?_⟩
      simp only [List.forall_mem_map, List.mem_singleton, forall_eq]
      exact fun o ho => (number_of_mem_negated ho).2.2 hop
    · rw [if_neg hop, List.append_nil]
      exact ih n
  | operation op left right ihl ihr =>
    rw [negated, List.map_append, List.pairwise_append]
    refine ⟨ihl n, ihr _, ?_⟩
    simp only [List.forall_mem_map]
    intro o ho o' ho'
    have := number_of_mem_negated ho
    have := number_of_mem_negated ho'
    omega

theorem isOperation_of_mem_reached {e : Expr} {n k : Nat} (h : k ∈ e.reached n) :
    e.isOperation := by
  cases e with
  | operation => rfl
  | term | negation => cases h

/-- Every operation is in the tree of the expression or in that of one under a change of sign. -/
theorem mem_reached {e : Expr} {n k : Nat} (hlt : n < k) (hle : k ≤ n + e.operations) :
    k ∈ e.reached n ∨ ∃ o ∈ e.negated n, k ∈ o.reached := by
  induction e generalizing n with
  | term => exact absurd hle (by simp only [operations]; omega)
  | negation e ih =>
    right
    rcases ih hlt hle with h | ⟨o, ho, hk⟩
    · exact ⟨⟨n, e⟩, mem_negated_negation.mpr (.inr ⟨isOperation_of_mem_reached h, rfl⟩), h⟩
    · exact ⟨o, mem_negated_negation.mpr (.inl ho), hk⟩
  | operation op left right ihl ihr =>
    simp only [operations] at hle
    simp only [reached, negated, List.mem_cons, List.mem_append]
    by_cases hleft : k ≤ n + left.operations
    · rcases ihl hlt hleft with h | ⟨o, ho, hk⟩
      · exact .inl (.inr (.inl h))
      · exact .inr ⟨o, .inl ho, hk⟩
    · by_cases hright : k ≤ n + left.operations + right.operations
      · rcases ihr (by omega) hright with h | ⟨o, ho, hk⟩
        · exact .inl (.inr (.inr h))
        · exact .inr ⟨o, .inr ho, hk⟩
      · exact .inl (.inl (by omega))

end Expr

end ThreeAddress
