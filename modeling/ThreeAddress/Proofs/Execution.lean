import Mathlib.Logic.Function.Basic
import ThreeAddress.Proofs.Acceptance

/-!
# Triads compute the value of the statement

Names, constants and operators mean anything over any carrier. An expression then has a value, and
triads can be carried out one after the other: each computes a value from its operands and keeps it
in its temporary, and an assignment is recorded. Reading a temporary that keeps nothing stops the
execution. The triads of an expression leave older temporaries alone and end with the value of the
expression in its operand; this is the invariant that carries the induction.
-/
namespace ThreeAddress
open Grammar Statement

universe u

/-- A meaning of names, constants and operators over a carrier. -/
structure Interpretation (α : Type*) where
  name : String → α
  number : Binary64 → α
  character : Char → α
  negate : α → α
  combine : BinaryOperator → α → α → α

/-- What execution has done so far. -/
structure Memory (α : Type*) where
  /-- The values kept in temporaries. -/
  temporaries : Nat → Option α := fun _ => none
  /-- The assignments made, each with its target. -/
  assigned : List (Operand × α) := []

variable {α : Type*}

namespace Memory

def store (m : Memory α) (id : Nat) (v : α) : Memory α :=
  { m with temporaries := Function.update m.temporaries id (some v) }

@[simp] theorem temporaries_store_self (m : Memory α) (id : Nat) (v : α) :
    (m.store id v).temporaries id = some v := by simp [store]

theorem temporaries_store_of_ne (m : Memory α) {id k : Nat} (v : α) (h : k ≠ id) :
    (m.store id v).temporaries k = m.temporaries k := by simp [store, h]

end Memory

variable (I : Interpretation α)

def Term.value : Term → α
  | name text => I.name text
  | number value => I.number value
  | character value => I.character value

def Expr.value : Expr → α
  | term t => t.value I
  | negation e => I.negate e.value
  | operation op left right => I.combine op left.value right.value

/-- The binary operators of an expression in post-order. -/
def Expr.operators : Expr → List BinaryOperator
  | term _ => []
  | negation e => e.operators
  | operation op left right => left.operators ++ right.operators ++ [op]

/-- The value of an operand, unless it uses a temporary that keeps nothing. -/
def Operand.value? (m : Memory α) : Operand → Option α
  | identifier text => some (I.name text)
  | number value => some (I.number value)
  | character value => some (I.character value)
  | temporary id => m.temporaries id
  | negated operand => (operand.value? m).map I.negate

namespace Triad

/-- The value that a binary operator gives for the operands of the triad. -/
def combined? (m : Memory α) (t : Triad) (op : BinaryOperator) : Option α := do
  let left ← t.left.value? I m
  let right ← t.right.value? I m
  return I.combine op left right

/-- The value that a triad computes. An assignment hands on its right operand, and a change of sign
uses the left operand only. -/
def value? (m : Memory α) (t : Triad) : Option α :=
  match t.operator with
  | .assign => t.right.value? I m
  | .add => t.combined? I m .add
  | .subtract => t.combined? I m .subtract
  | .multiply => t.combined? I m .multiply
  | .divide => t.combined? I m .divide
  | .negate => (t.left.value? I m).map I.negate

/-- Keeps a value in the temporary of the triad, if it has one. -/
def keep (t : Triad) (v : α) (m : Memory α) : Memory α :=
  match t.result? with
  | some id => m.store id v
  | none => m

/-- Carries out a triad. -/
def execute? (m : Memory α) (t : Triad) : Option (Memory α) := do
  let v ← t.value? I m
  let kept := t.keep v m
  return if t.operator = .assign then { kept with assigned := kept.assigned ++ [(t.left, v)] }
    else kept

end Triad

/-- Carries out triads in turn. -/
def execute? (m : Memory α) (triads : List Triad) : Option (Memory α) :=
  triads.foldlM (Triad.execute? I) m

variable {I}

theorem execute?_append (m : Memory α) (xs ys : List Triad) :
    execute? I m (xs ++ ys) = (execute? I m xs).bind fun m' => execute? I m' ys := by
  simp [execute?, List.foldlM_append]

@[simp] theorem Term.value?_operand (t : Term) (m : Memory α) :
    t.operand.value? I m = some (t.value I) := by
  cases t <;> rfl

/-- An operand has the same value wherever the temporary that it refers to keeps the same. -/
theorem Operand.value?_congr {o : Operand} {m m' : Memory α}
    (h : ∀ k, o.referenced? = some k → m.temporaries k = m'.temporaries k) :
    o.value? I m = o.value? I m' := by
  induction o with
  | identifier | number | character => rfl
  | temporary id => exact h id rfl
  | negated o ih => rw [value?, value?, ih h]

theorem Triad.value?_triadOf {n : Nat} (op : BinaryOperator) {left right : Expr} {m : Memory α}
    {a b : α} (ha : (left.operand n).value? I m = some a)
    (hb : (right.operand (n + left.operations)).value? I m = some b) :
    (Expr.triadOf n op left right).value? I m = some (I.combine op a b) := by
  have hcombined : (Expr.triadOf n op left right).combined? I m op = some (I.combine op a b) := by
    simp [combined?, Expr.triadOf, ha, hb]
  cases op <;> exact hcombined

/-- Carrying out an operation keeps its value under its number. -/
theorem Triad.execute?_triadOf {n : Nat} {op : BinaryOperator} {left right : Expr} {m : Memory α}
    {v : α} (h : (Expr.triadOf n op left right).value? I m = some v) :
    (Expr.triadOf n op left right).execute? I m =
      some (m.store (n + left.operations + right.operations + 1) v) := by
  have hoperator : (Expr.triadOf n op left right).operator ≠ .assign := op.operator_ne_assign
  unfold execute?
  simp only [h, Option.bind_eq_bind, Option.bind_some, if_neg hoperator]
  rfl

/-- The triads of an expression are carried out without reading a temporary too early. They leave
the first `n` temporaries and the assignments as they were, and the operand of the expression
then has its value. -/
theorem execute?_triads (e : Expr) (n : Nat) (m : Memory α) :
    ∃ m', execute? I m (e.triads n) = some m' ∧ m'.assigned = m.assigned ∧
      (∀ k ≤ n, m'.temporaries k = m.temporaries k) ∧
      (e.operand n).value? I m' = some (e.value I) := by
  induction e generalizing n m with
  | term t => exact ⟨m, rfl, rfl, fun _ _ => rfl, t.value?_operand m⟩
  | negation e ih =>
    obtain ⟨m', hrun, hassigned, hold, hvalue⟩ := ih n m
    refine ⟨m', hrun, hassigned, hold, ?_⟩
    rw [Expr.operand, Operand.value?, hvalue]
    rfl
  | operation op left right ihl ihr =>
    obtain ⟨m₁, hrunl, hassignedl, holdl, hvaluel⟩ := ihl n m
    obtain ⟨m₂, hrunr, hassignedr, holdr, hvaluer⟩ := ihr (n + left.operations) m₁
    -- The right operand's triads do not touch the temporary that the left operand refers to.
    have hleft : (left.operand n).value? I m₂ = some (left.value I) := by
      rw [← hvaluel]
      apply Operand.value?_congr
      intro k hk
      exact holdr k (Expr.referenced?_operand hk).2
    have hlast := Triad.execute?_triadOf (Triad.value?_triadOf op hleft hvaluer)
    refine ⟨m₂.store (n + left.operations + right.operations + 1)
      (I.combine op (left.value I) (right.value I)), ?_, ?_, ?_, ?_⟩
    · rw [Expr.triads, execute?_append, execute?_append, hrunl, Option.bind_some, hrunr,
        Option.bind_some]
      simpa [execute?] using hlast
    · exact hassignedr.trans hassignedl
    · intro k hk
      rw [m₂.temporaries_store_of_ne _ (by omega), holdr k (by omega), holdl k hk]
    · simp [Expr.operand, Operand.value?, Expr.value]

/-- The triads of a statement are carried out to the end and make one assignment, of the value. -/
theorem Assignment.execute?_triads (a : Assignment) :
    ∃ m, execute? I {} a.triads = some m ∧ m.assigned = [(a.target.operand, a.value.value I)] := by
  obtain ⟨m, hrun, hassigned, -, hvalue⟩ := ThreeAddress.execute?_triads (I := I) a.value 0 {}
  refine ⟨{ m with assigned := m.assigned ++ [(a.target.operand, a.value.value I)] }, ?_, ?_⟩
  · rw [triads, execute?_append, hrun, Option.bind_some]
    simp [execute?, Triad.execute?, Triad.value?, Triad.keep, closing, hvalue]
  · rw [hassigned]
    rfl

/-- Every operation has a triad, in post-order, and each of these triads keeps a result. -/
theorem Expr.map_operator_triads (e : Expr) (n : Nat) :
    ((e.triads n).filter (·.result?.isSome)).map Triad.operator =
      e.operators.map BinaryOperator.operator := by
  induction e generalizing n with
  | term t => rfl
  | negation e ih => exact ih n
  | operation op left right ihl ihr =>
    simp [triads, operators, List.filter_append, ihl, ihr, triadOf]

theorem Expr.filter_isNone_triads (e : Expr) (n : Nat) :
    (e.triads n).filter (·.result?.isNone) = [] := by
  induction e generalizing n with
  | term t => rfl
  | negation e ih => exact ih n
  | operation op left right ihl ihr =>
    simp [triads, List.filter_append, ihl, ihr, triadOf]

/-- The triads of a listing compute a statement. -/
structure Listing.Computes (l : Listing) (a : Assignment) : Prop where
  /-- Whatever names, constants and operators mean, the triads are carried out to the end, and the
  only assignment gives the value of the statement to its target. -/
  assigns : ∀ (α : Type u) (I : Interpretation α), ∃ m, execute? I {} l.triads.toList = some m ∧
    m.assigned = [(a.target.operand, a.value.value I)]
  /-- The triads that keep a result are those of the binary operations, one for each. -/
  operations : (l.triads.toList.filter (·.result?.isSome)).map Triad.operator =
    a.value.operators.map BinaryOperator.operator
  /-- The only other triad is the last one, which assigns to the target. -/
  closing : ∃ last, l.last? = some last ∧ l.triads.toList.filter (·.result?.isNone) = [last] ∧
    last.operator = .assign ∧ last.left = a.target.operand

theorem Assignment.computes_listing (a : Assignment) : Listing.Computes.{u} a.listing a where
  assigns α I := by
    rw [toList_triads_listing]
    exact a.execute?_triads
  operations := by
    rw [toList_triads_listing, triads, List.filter_append, List.map_append,
      Expr.map_operator_triads]
    simp [closing]
  closing := by
    refine ⟨a.closing, ?_, ?_, rfl, rfl⟩
    · simp [Listing.last?, listing, triads]
    · rw [toList_triads_listing, triads, List.filter_append, Expr.filter_isNone_triads]
      rfl

/-- The listing of a statement that is read computes the statement: it has one abstract syntax, and
executing the triads gives the value of that under every interpretation. -/
theorem parse_computes_value {source : String} {l : Listing} (h : parse source = .ok l) :
    ∃ a, Denotes source a ∧ (∀ b, Denotes source b → b = a) ∧ Listing.Computes.{u} l a := by
  obtain ⟨a, ha, hunique, rfl⟩ := exists_assignment_of_parse h
  exact ⟨a, ha, hunique, a.computes_listing⟩

/-- Two changes of sign, one of them over an operation. -/
theorem parse_computes_value_signed :
    ∃ l, parse "x:=-(y+2)*-'z';" = .ok l ∧ l.triads.size = 3 ∧
      ∃ a, Denotes "x:=-(y+2)*-'z';" a ∧ (∀ b, Denotes "x:=-(y+2)*-'z';" b → b = a) ∧
        Listing.Computes.{0} l a := by
  let l : Listing := ⟨#[
    ⟨1, .add, .identifier "y", .number ⟨0x4000000000000000⟩, some 1⟩,
    ⟨2, .multiply, .negated (.temporary 1), .negated (.character 'z'), some 2⟩,
    ⟨3, .assign, .identifier "x", .temporary 2, none⟩]⟩
  have h : parse "x:=-(y+2)*-'z';" = .ok l := by decide +kernel
  exact ⟨l, h, rfl, parse_computes_value h⟩

end ThreeAddress
