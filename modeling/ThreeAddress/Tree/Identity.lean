import Std.Data.TreeMap
import ThreeAddress.NumberSet
import ThreeAddress.Tree.Node
import ThreeAddress.Tree.Walk

/-!
# The same node twice

A walk may meet one node several times, because leaves are shared. Nodes are the same when they
have the same stamp, whatever their labels say.
-/
namespace ThreeAddress

/-- For each key, the index at which it was first seen, counting from a given index. -/
def firstIndicesFrom (index : Nat) (seen : Std.TreeMap Nat Nat) : List Nat → List Nat
  | [] => []
  | key :: rest =>
      match seen[key]? with
      | some first => first :: firstIndicesFrom (index + 1) seen rest
      | none => index :: firstIndicesFrom (index + 1) (seen.insert key index) rest

/-- For each key of a list, the index at which the key stands first. -/
def firstIndices (keys : List Nat) : List Nat := firstIndicesFrom 0 ∅ keys

/-- The nodes of a list without those that stand earlier in it or were seen before. -/
def distinctNodes (seen : NumberSet) : List Node → List Node
  | [] => []
  | node :: rest =>
      if seen.contains node.stamp then distinctNodes seen rest
      else node :: distinctNodes (seen.insert node.stamp) rest

namespace Tree

/-- For each visit of a walk, the index of the first visit of the same node. -/
def firstVisits (t : Tree Node) : List Nat :=
  firstIndices ((t.preorder.toList.filterMap value?).map Node.stamp)

/-- The leaves in the order in which a walk first meets them, each once. -/
def leaves (t : Tree Node) : List Node :=
  distinctNodes ∅ ((t.preorder.toList.filter isLeaf).filterMap value?)

end Tree
end ThreeAddress
