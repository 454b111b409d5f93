/-!
# Binary trees

A node has a value and two subtrees, each of which may be missing. The empty tree stands for a
missing subtree, so a leaf is a node with two empty ones, and a node may have a right child only.
-/
namespace ThreeAddress

inductive Tree (α : Type) where
  | empty
  | node (value : α) (left right : Tree α)
  deriving DecidableEq, Repr

namespace Tree

/-- A node without children. -/
def leaf (value : α) : Tree α := node value empty empty

def isEmpty : Tree α → Bool
  | empty => true
  | node .. => false

/-- The value at the root. -/
def value? : Tree α → Option α
  | empty => none
  | node value .. => some value

def left : Tree α → Tree α
  | empty => empty
  | node _ left _ => left

def right : Tree α → Tree α
  | empty => empty
  | node _ _ right => right

/-- The children of the root that are there, left before right. -/
def children (t : Tree α) : List (Tree α) :=
  [t.left, t.right].filter fun child => !child.isEmpty

/-- Whether the root has no children. -/
def isLeaf (t : Tree α) : Bool := t.left.isEmpty && t.right.isEmpty

/-- The same tree with other values. -/
def map (f : α → β) : Tree α → Tree β
  | empty => empty
  | node value left right => node (f value) (left.map f) (right.map f)

@[simp] theorem isEmpty_map (f : α → β) (t : Tree α) : (t.map f).isEmpty = t.isEmpty := by
  cases t <;> rfl

end Tree
end ThreeAddress
