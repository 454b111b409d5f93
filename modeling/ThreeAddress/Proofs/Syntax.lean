import ThreeAddress.Listing.Basic

/-!
# Abstract syntax and its triads

The abstract syntax of a statement keeps what matters for its value: the target, the terms, the
changes of sign and the binary operations. Brackets are gone. Every binary operation becomes one
triad, the operands' triads first, so operations are numbered in post-order; a change of sign is
kept in the operand and has no triad. The functions below say this directly on the syntax and
know nothing about how a statement is read.
-/
namespace ThreeAddress

/-- A name or a constant. -/
inductive Term where
  | name (text : String)
  | number (value : Binary64)
  | character (value : Char)
  deriving DecidableEq, Repr

def Term.operand : Term → Operand
  | name text => .identifier text
  | number value => .number value
  | character value => .character value

inductive BinaryOperator where
  | add
  | subtract
  | multiply
  | divide
  deriving DecidableEq, Repr

namespace BinaryOperator

def operator : BinaryOperator → Operator
  | add => .add
  | subtract => .subtract
  | multiply => .multiply
  | divide => .divide

/-- The character that stands for the operator in a statement. -/
def sign : BinaryOperator → Char
  | add => '+'
  | subtract => '-'
  | multiply => '*'
  | divide => '/'

def level : BinaryOperator → Precedence
  | add | subtract => .sum
  | multiply | divide => .product

@[simp] theorem isBinary_operator (op : BinaryOperator) : op.operator.isBinary = true := by
  cases op <;> rfl

theorem operator_ne_assign (op : BinaryOperator) : op.operator ≠ .assign := by
  cases op <;> decide

end BinaryOperator

/-- A level knows exactly the signs of its own operators. -/
theorem Precedence.operator?_eq_some_iff {level : Precedence} {c : Char} {o : Operator} :
    level.operator? c = some o ↔
      ∃ op : BinaryOperator, op.level = level ∧ op.sign = c ∧ op.operator = o := by
  constructor
  · intro h
    unfold Precedence.operator? at h
    split at h
    · exact ⟨.add, rfl, rfl, Option.some.inj h⟩
    · exact ⟨.subtract, rfl, rfl, Option.some.inj h⟩
    · exact ⟨.multiply, rfl, rfl, Option.some.inj h⟩
    · exact ⟨.divide, rfl, rfl, Option.some.inj h⟩
    · cases h
  · rintro ⟨op, rfl, rfl, rfl⟩
    cases op <;> rfl

inductive Expr where
  | term (t : Term)
  | negation (e : Expr)
  | operation (op : BinaryOperator) (left right : Expr)
  deriving DecidableEq, Repr

namespace Expr

/-- The number of binary operations. -/
def operations : Expr → Nat
  | term _ => 0
  | negation e => e.operations
  | operation _ left right => left.operations + right.operations + 1

/-- The operand that stands for the value when `n` triads precede those of the expression. An
operation is the last of its triads, so its temporary has the number of all of them. -/
def operand (n : Nat) : Expr → Operand
  | term t => t.operand
  | negation e => .negated (e.operand n)
  | operation _ left right => .temporary (n + left.operations + right.operations + 1)

/-- The triad of an operation itself, after those of its operands. -/
def triadOf (n : Nat) (op : BinaryOperator) (left right : Expr) : Triad :=
  let number := n + left.operations + right.operations + 1
  { number
    operator := op.operator
    left := left.operand n
    right := right.operand (n + left.operations)
    result? := some number }

/-- The triads of an expression that follow `n` others. -/
def triads (n : Nat) : Expr → List Triad
  | term _ => []
  | negation e => e.triads n
  | operation op left right =>
      left.triads n ++ right.triads (n + left.operations) ++ [triadOf n op left right]

@[simp] theorem length_triads (e : Expr) (n : Nat) : (e.triads n).length = e.operations := by
  induction e generalizing n with
  | term t => rfl
  | negation e ih => exact ih n
  | operation op left right ihl ihr =>
      simp only [triads, operations, List.length_append, ihl, ihr, List.length_singleton]

/-- An expression refers to one of its own triads only, also under changes of sign. -/
theorem referenced?_operand {e : Expr} {n k : Nat} (h : (e.operand n).referenced? = some k) :
    n < k ∧ k ≤ n + e.operations := by
  induction e with
  | term t => cases t <;> cases h
  | negation e ih => exact ih h
  | operation op left right =>
      obtain rfl := Option.some.inj h
      simp only [operations]
      omega

end Expr

/-- The abstract syntax of a statement. -/
structure Assignment where
  target : Term
  value : Expr
  deriving DecidableEq, Repr

namespace Assignment

/-- The triad that closes the statement. -/
def closing (a : Assignment) : Triad :=
  { number := a.value.operations + 1
    operator := .assign
    left := a.target.operand
    right := a.value.operand 0
    result? := none }

/-- The triads of a statement: those of its value, then the assignment. -/
def triads (a : Assignment) : List Triad := a.value.triads 0 ++ [a.closing]

def listing (a : Assignment) : Listing := ⟨a.triads.toArray⟩

@[simp] theorem toList_triads_listing (a : Assignment) : a.listing.triads.toList = a.triads := rfl

@[simp] theorem length_triads (a : Assignment) :
    a.triads.length = a.value.operations + 1 := by simp [triads]

@[simp] theorem size_triads_listing (a : Assignment) :
    a.listing.triads.size = a.value.operations + 1 := by simp [listing]

theorem getElem?_triads (a : Assignment) (i : Fin a.listing.triads.size) :
    a.triads[i.val]? = some (a.listing.triadAt i) := by
  rw [← a.toList_triads_listing, Array.getElem?_toList]
  exact Array.getElem?_eq_getElem i.isLt

end Assignment
end ThreeAddress
