import ThreeAddress.Tree.Walk

/-!
# The order of a walk

A walk keeps the subtrees still to come in a list, and takes the first of them at every step. It
visits the subtrees that recursion visits, in the same order: a node before everything below it, and
what is to the left before what is to the right.
-/
namespace ThreeAddress.Tree

variable {α : Type}

/-- The subtrees with a node at their root, in the order of a walk. -/
def subtrees : Tree α → List (Tree α)
  | empty => []
  | node value left right => node value left right :: (left.subtrees ++ right.subtrees)

/-- What is visited is what was visited before, and then all pending subtrees in turn. -/
theorem toList_visitAll (visited : Array (Tree α)) (pending : List (Tree α)) :
    (visitAll visited pending).toList = visited.toList ++ pending.flatMap subtrees := by
  fun_induction visitAll visited pending with
  | case1 visited => simp
  | case2 visited rest ih => simpa [subtrees] using ih
  | case3 visited value left right rest ih =>
    rw [ih]
    simp [subtrees]

theorem toList_preorder (t : Tree α) : t.preorder.toList = t.subtrees := by
  rw [preorder, toList_visitAll]
  simp

theorem mem_preorder_iff {s t : Tree α} : s ∈ t.preorder ↔ s ∈ t.subtrees := by
  rw [← Array.mem_toList_iff, toList_preorder]

/-- Every node has two children or none. -/
def Full (t : Tree α) : Prop :=
  ∀ s ∈ t.preorder, s.isLeaf = false → s.children.length = 2

theorem full_leaf (value : α) : (leaf value).Full := by
  intro s hs hleaf
  simp only [mem_preorder_iff, leaf, subtrees, List.append_nil, List.mem_singleton] at hs
  rw [hs] at hleaf
  cases hleaf

theorem full_node {value : α} {left right : Tree α} (hl : left.isEmpty = false)
    (hr : right.isEmpty = false) (hleft : left.Full) (hright : right.Full) :
    (node value left right).Full := by
  intro s hs hleaf
  rw [mem_preorder_iff, subtrees, List.mem_cons, List.mem_append] at hs
  rcases hs with rfl | hs | hs
  · simp [children, Tree.left, Tree.right, hl, hr]
  · exact hleft s (mem_preorder_iff.mpr hs) hleaf
  · exact hright s (mem_preorder_iff.mpr hs) hleaf

/-- A tree that is built up from leaves by joining two trees under a node. -/
inductive Branching : Tree α → Prop where
  | leaf (value : α) : Branching (leaf value)
  | node (value : α) {left right : Tree α} (left_branching : Branching left)
      (right_branching : Branching right) : Branching (node value left right)

theorem Branching.full {t : Tree α} (h : t.Branching) : t.isEmpty = false ∧ t.Full := by
  induction h with
  | leaf value => exact ⟨rfl, full_leaf value⟩
  | node value _ _ ihl ihr => exact ⟨rfl, full_node ihl.1 ihr.1 ihl.2 ihr.2⟩

end ThreeAddress.Tree
