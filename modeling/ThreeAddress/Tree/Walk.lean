import ThreeAddress.Tree.Basic

/-!
# Walking trees

Nodes are visited before their children and left subtrees before right ones. The walk and the
drawing of an outline keep the subtrees still to come in a list, so that a deep tree needs no deep
recursion; they end because the pending subtrees get lighter.
-/
namespace ThreeAddress.Tree

/-- What a subtree costs on a list of pending ones: each node and each missing subtree counts. -/
def weight : Tree α → Nat
  | empty => 1
  | node _ left right => left.weight + right.weight + 1

/-- What a list of pending subtrees costs. -/
def weights : List (Tree α) → Nat
  | [] => 0
  | t :: rest => t.weight + weights rest

/-- Visits the pending subtrees in turn. -/
def visitAll (visited : Array (Tree α)) : List (Tree α) → Array (Tree α)
  | [] => visited
  | empty :: rest => visitAll visited rest
  | node value left right :: rest =>
      visitAll (visited.push (node value left right)) (left :: right :: rest)
termination_by pending => weights pending
decreasing_by all_goals simp only [weights, weight]; omega

/-- Every visit of a walk over the tree, as the subtree below it. -/
def preorder (t : Tree α) : Array (Tree α) := visitAll #[] [t]

/-- A subtree still to be drawn. -/
structure Pending (α : Type) where
  tree : Tree α
  indent : String
  /-- Whether it is the last child of its parent. -/
  last : Bool

namespace Pending

/-- The sign in front of a label: a corner for the last child, a branch for any other. -/
def glyph (last : Bool) : String := if last then "└─" else "├─"

/-- What the children are indented by: a line goes on beside all but the last child. -/
def continuation (last : Bool) : String := if last then "  " else "| "

def weights : List (Pending α) → Nat
  | [] => 0
  | p :: rest => p.tree.weight + weights rest

end Pending

/-- Draws the pending subtrees in turn. -/
def drawAll (label : α → String) (drawn : String) : List (Pending α) → String
  | [] => drawn
  | ⟨empty, _, _⟩ :: rest => drawAll label drawn rest
  | ⟨node value left right, indent, last⟩ :: rest =>
      let line := indent ++ Pending.glyph last ++ label value ++ "\n"
      let inner := indent ++ Pending.continuation last
      drawAll label (drawn ++ line)
        (⟨left, inner, right.isEmpty⟩ :: ⟨right, inner, true⟩ :: rest)
termination_by pending => Pending.weights pending
decreasing_by all_goals simp only [Pending.weights, weight]; omega

/-- The tree as an indented outline, a line for each visit. -/
def outline (label : α → String) (t : Tree α) : String := drawAll label "" [⟨t, "", true⟩]

end ThreeAddress.Tree
