import ThreeAddress.Proofs.Walks

/-!
# Outlines by recursion

An outline is drawn from a list of subtrees still to come, each with its indentation and with
whether it is the last child of its parent. `drawing` is the same outline by recursion over the
tree: what is drawn from a list is what the recursion draws for each of its subtrees in turn, so
that the list and the order in which children are put on it do not show. `visits` gives the walk and
the outline a common list: every visit of the walk is one entry of the outline, in the same order.
-/
namespace ThreeAddress.Tree

variable {α β : Type}

/-- The outline of a subtree by recursion. A node writes its indentation, its sign, its label and a
line feed; the sign is a corner for a last child and for the root, and a branch for any other child.
The children come after it, indented by two more characters: blanks below a corner, a bar and a
blank below a branch. A left child is the last one where there is no right one. -/
def drawing (label : α → String) (indent : String) (last : Bool) : Tree α → String
  | empty => ""
  | node value left right =>
      let inner := indent ++ if last then "  " else "| "
      indent ++ (if last then "└─" else "├─") ++ label value ++ "\n" ++
        (left.drawing label inner right.isEmpty ++ right.drawing label inner true)

/-- How a function draws trees by recursion over children. A node writes its line, and then come its
children, all but the last one drawn as children that others follow and the last one as such. -/
structure DrawsChildren (label : α → String) (draw : String → Bool → Tree α → String) : Prop where
  empty : ∀ indent last, draw indent last empty = ""
  node : ∀ indent last value left right,
    let children := (node value left right).children
    let inner := indent ++ if last then "  " else "| "
    draw indent last (node value left right) =
      indent ++ (if last then "└─" else "├─") ++ label value ++ "\n" ++
        String.join (children.dropLast.map (draw inner false) ++
          children.getLast?.toList.map (draw inner true))

theorem drawsChildren_drawing (label : α → String) : DrawsChildren label (drawing label) where
  empty := fun _ _ => rfl
  node := by
    intro indent last value left right
    -- Which child is the last one depends on which of the two are there.
    cases left with
    | empty => cases right <;> simp [drawing, children, Tree.left, Tree.right, isEmpty]
    | node => cases right <;> simp [drawing, children, Tree.left, Tree.right, isEmpty]

/-- What is drawn is what was drawn before, and then all pending subtrees in turn. -/
theorem drawAll_eq (label : α → String) (drawn : String) (pending : List (Pending α)) :
    drawAll label drawn pending =
      drawn ++ String.join (pending.map fun p => p.tree.drawing label p.indent p.last) := by
  fun_induction drawAll label drawn pending with
  | case1 drawn => simp
  | case2 drawn indent last rest ih => simpa [drawing] using ih
  | case3 drawn value left right indent last rest line inner ih =>
    rw [ih]
    simp only [line, inner, Pending.glyph, Pending.continuation, drawing, List.map_cons,
      String.join_cons, String.append_assoc]

theorem drawing_map (label : β → String) (f : α → β) (indent : String) (last : Bool) (t : Tree α) :
    (t.map f).drawing label indent last = t.drawing (fun value => label (f value)) indent last := by
  induction t generalizing indent last with
  | empty => rfl
  | node value left right ihl ihr => simp only [map, drawing, isEmpty_map, ihl, ihr]

theorem outline_eq_drawing (label : α → String) (t : Tree α) :
    t.outline label = t.drawing label "" true := by
  rw [outline, drawAll_eq]
  simp

/-- The visits of a walk below a node, each with how its subtree is drawn. -/
def visits (indent : String) (last : Bool) : Tree α → List (Pending α)
  | empty => []
  | node value left right =>
      let inner := indent ++ Pending.continuation last
      ⟨node value left right, indent, last⟩ ::
        (left.visits inner right.isEmpty ++ right.visits inner true)

/-- What a visit writes for its own node. -/
def Pending.entry (label : α → String) (p : Pending α) : String :=
  match p.tree with
  | empty => ""
  | node value _ _ => p.indent ++ glyph p.last ++ label value ++ "\n"

theorem map_tree_visits (indent : String) (last : Bool) (t : Tree α) :
    (t.visits indent last).map Pending.tree = t.subtrees := by
  induction t generalizing indent last with
  | empty => rfl
  | node value left right ihl ihr => simp [visits, subtrees, ihl, ihr]

theorem join_map_entry_visits (label : α → String) (indent : String) (last : Bool) (t : Tree α) :
    String.join ((t.visits indent last).map (Pending.entry label)) =
      t.drawing label indent last := by
  induction t generalizing indent last with
  | empty => rfl
  | node value left right ihl ihr =>
    simp only [visits, List.map_cons, List.map_append, String.join_cons, String.join_append, ihl,
      ihr]
    rfl

/-- A walk visits the subtrees that recursion visits, and an outline is what recursion draws, both
in the order of the recursion. The outline has one entry for each visit of the walk, in the same
order. -/
theorem walk_and_outline_follow_recursion (label : α → String) (t : Tree α) :
    t.preorder.toList = t.subtrees ∧
      DrawsChildren label (drawing label) ∧ t.outline label = t.drawing label "" true ∧
      (t.visits "" true).map Pending.tree = t.preorder.toList ∧
      t.outline label = String.join ((t.visits "" true).map (Pending.entry label)) := by
  have hwalk := toList_preorder t
  have houtline := outline_eq_drawing label t
  refine ⟨hwalk, drawsChildren_drawing label, houtline, ?_, ?_⟩
  · rw [hwalk, map_tree_visits]
  · rw [houtline, join_map_entry_visits]

end ThreeAddress.Tree
