import ThreeAddress.Tree.Basic

/-!
# Nodes of expression trees

Two nodes with one label may be different nodes, so a node has a stamp besides its label.
-/
namespace ThreeAddress

/-- A node of an expression tree. Every node that is made gets a new stamp; a leaf that is met
again keeps its own. -/
structure Node where
  stamp : Nat
  label : String
  deriving DecidableEq, Repr

end ThreeAddress
