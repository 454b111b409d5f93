import ThreeAddress.Proofs.Acyclicity
import ThreeAddress.Proofs.Drawing

/-!
# Reading outlines back

The outline of a tree that was built from listings determines the labels and the shape of the tree,
whatever blanks, bars and signs the labels have, as long as they have no line feed. The first line
feed ends the label of a node. Where a subtree ends shows in what follows it: everything below a
node is indented by two characters more than the node itself, and what comes after the subtree is
not indented in this way. This tells a leaf from a node with children; a node of a built tree never
has one child alone, which would look alike on either side.
-/
namespace ThreeAddress

open Expansion

namespace Tree

variable {α β : Type}

/-! ## Subtrees and what follows them -/

/-- The indentation of the lines below a node. -/
def innerIndent (indent : List Char) (last : Bool) : List Char :=
  indent ++ if last then [' ', ' '] else ['|', ' ']

/-- The line of a node between its indentation and its line feed. -/
def signedLabel (last : Bool) (label : String) : List Char :=
  (if last then ['└', '─'] else ['├', '─']) ++ label.toList

/-- The characters of a drawing. -/
def drawn (indent : List Char) (last : Bool) (t : Tree String) : List Char :=
  (t.drawing id (String.ofList indent) last).toList

theorem drawn_leaf_append (indent : List Char) (last : Bool) (label : String) (rest : List Char) :
    drawn indent last (leaf label) ++ rest =
      indent ++ (signedLabel last label ++ '\n' :: rest) := by
  cases last <;> simp [drawn, drawing, signedLabel, leaf]

theorem drawn_node_append (indent : List Char) (last : Bool) (label : String)
    {left right : Tree String} (h : right.Branching) (rest : List Char) :
    drawn indent last (node label left right) ++ rest =
      indent ++ (signedLabel last label ++ '\n' :: (drawn (innerIndent indent last) false left ++
        (drawn (innerIndent indent last) true right ++ rest))) := by
  cases last <;> simp [drawn, drawing, signedLabel, innerIndent, h.full.1]

/-- A drawing starts with the indentation and the sign of its root. -/
theorem Branching.exists_drawn_append_eq {t : Tree String} (h : t.Branching) (indent : List Char)
    (last : Bool) (rest : List Char) :
    ∃ label below, drawn indent last t ++ rest = indent ++ (signedLabel last label ++ below) := by
  cases h with
  | leaf label => exact ⟨label, _, drawn_leaf_append indent last label rest⟩
  | node label _ hright => exact ⟨label, _, drawn_node_append indent last label hright rest⟩

/-- The line of a node ends at the first line feed. -/
theorem line_unique {indent : List Char} {last : Bool} {label label' : String}
    {below below' : List Char} (hlabel : '\n' ∉ label.toList) (hlabel' : '\n' ∉ label'.toList)
    (h : indent ++ (signedLabel last label ++ '\n' :: below) =
      indent ++ (signedLabel last label' ++ '\n' :: below')) : label = label' ∧ below = below' := by
  have hline := List.append_cancel_left h
  rw [signedLabel, signedLabel, List.append_assoc, List.append_assoc] at hline
  have htext := List.append_cancel_left hline
  -- A label is the longest run without a line feed.
  have hrun : ∀ {text : List Char}, '\n' ∉ text → ∀ c ∈ text, (c != '\n') = true := by
    intro text htext c hc
    exact bne_iff_ne.mpr fun hfeed => htext (hfeed ▸ hc)
  obtain ⟨hsame, hfeed⟩ := Grammar.run_unique htext (hrun hlabel) (hrun hlabel')
    (Grammar.head?_cons_stop rfl _) (Grammar.head?_cons_stop rfl _)
  exact ⟨String.toList_inj.mp hsame, (List.cons.inj hfeed).2⟩

/-- What follows a leaf is not the children of a node. -/
theorem drawn_leaf_append_ne {indent : List Char} {last : Bool} {label label' : String}
    {left right : Tree String} {rest rest' : List Char} (hlabel : '\n' ∉ label.toList)
    (hlabel' : '\n' ∉ label'.toList) (hleft : left.Branching) (hright : right.Branching)
    (hrest : ¬innerIndent indent last <+: rest) : drawn indent last (leaf label) ++ rest ≠
      drawn indent last (node label' left right) ++ rest' := by
  intro h
  rw [drawn_leaf_append, drawn_node_append _ _ _ hright] at h
  obtain ⟨-, hbelow⟩ := line_unique hlabel hlabel' h
  obtain ⟨first, below, hfirst⟩ := hleft.exists_drawn_append_eq (innerIndent indent last) false
    (drawn (innerIndent indent last) true right ++ rest')
  apply hrest
  rw [hbelow, hfirst]
  exact List.prefix_append _ _

/-- What follows a left child is not indented like the lines below it: the line of the right child
has its corner where these have their bar. -/
theorem not_innerIndent_prefix_right {t : Tree String} (h : t.Branching) (indent rest : List Char) :
    ¬innerIndent indent false <+: drawn indent true t ++ rest := by
  obtain ⟨label, below, hfirst⟩ := h.exists_drawn_append_eq indent true rest
  rw [hfirst, innerIndent, List.prefix_append_right_inj]
  simp [signedLabel]

/-- A subtree can be told from what follows it in one way only, when what follows is not indented
like the lines below its root. -/
theorem drawn_unique {t u : Tree String} (ht : t.Branching) (hu : u.Branching)
    (htlines : ∀ label ∈ t.values, '\n' ∉ label.toList)
    (hulines : ∀ label ∈ u.values, '\n' ∉ label.toList) {indent : List Char} {last : Bool}
    {rest rest' : List Char} (hrest : ¬innerIndent indent last <+: rest)
    (hrest' : ¬innerIndent indent last <+: rest')
    (h : drawn indent last t ++ rest = drawn indent last u ++ rest') : t = u ∧ rest = rest' := by
  induction ht generalizing u indent last rest rest' with
  | leaf label =>
    have hlabel := htlines label (by simp [leaf, values])
    cases hu with
    | leaf label' =>
      have hlabel' := hulines label' (by simp [leaf, values])
      rw [drawn_leaf_append, drawn_leaf_append] at h
      obtain ⟨hsame, hfollows⟩ := line_unique hlabel hlabel' h
      exact ⟨congrArg leaf hsame, hfollows⟩
    | node label' hleft' hright' =>
      have hlabel' := hulines label' (by simp [values])
      exact absurd h (drawn_leaf_append_ne hlabel hlabel' hleft' hright' hrest)
  | @node label left right hleft hright ihl ihr =>
    have hlabel := htlines label (by simp [values])
    cases hu with
    | leaf label' =>
      have hlabel' := hulines label' (by simp [leaf, values])
      exact absurd h.symm (drawn_leaf_append_ne hlabel' hlabel hleft hright hrest')
    | @node label' left' right' hleft' hright' =>
      have hlabel' := hulines label' (by simp [values])
      simp only [values, List.forall_mem_cons, List.forall_mem_append] at htlines hulines
      rw [drawn_node_append _ _ _ hright, drawn_node_append _ _ _ hright'] at h
      obtain ⟨hsame, hbelow⟩ := line_unique hlabel hlabel' h
      have hinner : ∀ {text : List Char}, ¬innerIndent indent last <+: text →
          ¬innerIndent (innerIndent indent last) true <+: text := by
        intro text htext hdeep
        exact htext ((List.prefix_append _ _).trans hdeep)
      -- The right child follows the left one, and what follows the node follows the right child.
      obtain ⟨hsameLeft, hafter⟩ := ihl hleft' htlines.2.1 hulines.2.1
        (not_innerIndent_prefix_right hright _ _) (not_innerIndent_prefix_right hright' _ _) hbelow
      obtain ⟨hsameRight, hfollows⟩ := ihr hright' htlines.2.2 hulines.2.2 (hinner hrest)
        (hinner hrest') hafter
      exact ⟨by rw [hsame, hsameLeft, hsameRight], hfollows⟩

/-- An outline determines its tree, empty or not. -/
theorem eq_of_outline_eq {t u : Tree String} (ht : t = empty ∨ t.Branching)
    (hu : u = empty ∨ u.Branching) (htlines : ∀ label ∈ t.values, '\n' ∉ label.toList)
    (hulines : ∀ label ∈ u.values, '\n' ∉ label.toList) (h : t.outline id = u.outline id) :
    t = u := by
  have hdrawn : drawn [] true t ++ [] = drawn [] true u ++ [] := by
    rw [outline_eq_drawing, outline_eq_drawing] at h
    simpa [drawn] using congrArg String.toList h
  have hsome : ∀ {v : Tree String}, v.Branching →
      drawn [] true empty ++ [] ≠ drawn [] true v ++ [] := by
    intro v hv hnone
    obtain ⟨label, below, hfirst⟩ := hv.exists_drawn_append_eq [] true []
    rw [hfirst] at hnone
    cases hnone
  have hend : ¬innerIndent [] true <+: [] := by simp [innerIndent]
  rcases ht with rfl | ht
  · rcases hu with rfl | hu
    · rfl
    · exact absurd hdrawn (hsome hu)
  · rcases hu with rfl | hu
    · exact absurd hdrawn.symm (hsome ht)
    · exact (drawn_unique ht hu htlines hulines hend hend hdrawn).1

/-! ## Trees of listings -/

theorem values_map (f : α → β) (t : Tree α) : (t.map f).values = t.values.map f := by
  induction t with
  | empty => rfl
  | node value left right ihl ihr => simp [map, values, ihl, ihr]

theorem Branching.map {t : Tree α} (h : t.Branching) (f : α → β) : (t.map f).Branching := by
  induction h with
  | leaf value => exact .leaf (f value)
  | node value _ _ ihl ihr => exact .node (f value) ihl ihr

theorem Branching.joinWith {tree : Tree α} {rest : List (Tree α)} (h : tree.Branching)
    (hrest : ∀ t ∈ rest, t.Branching) (value : Nat → α) (n : Nat) :
    (joinWith value n tree rest).Branching := by
  induction rest generalizing n tree with
  | nil => exact h
  | cons next rest ih =>
    rw [List.forall_mem_cons] at hrest
    exact ih (.node (value n) h hrest.1) hrest.2 (n + 1)

end Tree

theorem Expansion.Expands.branching {l : Listing} {o : Origin l} {t : Tree (Origin l)}
    (h : Expands l o t) : t.Branching := by
  induction h with
  | leaf => exact .leaf _
  | producer _ _ _ ih => exact ih
  | triad _ _ ihl ihr => exact .node _ ihl ihr

theorem Listing.branching_of_outline {l : Listing} {outline : List (Tree String)}
    (h : l.outline = .ok outline) : ∀ t ∈ outline, t.Branching := by
  obtain ⟨ts, hts, -, rfl⟩ := outline_eq_ok_iff.mp h
  intro t ht
  obtain ⟨s, hs, rfl⟩ := List.mem_map.mp ht
  obtain ⟨root, -, hroot⟩ := exists_of_mem_of_forall₂ hts hs
  exact (expands_of_unfold hroot).branching.map Origin.label

theorem branching_comb {trees : List (Tree String)} (h : ∀ t ∈ trees, t.Branching) :
    comb trees = .empty ∨ (comb trees).Branching := by
  cases trees with
  | nil => exact .inl rfl
  | cons tree rest =>
    rw [List.forall_mem_cons] at h
    exact .inr (h.1.joinWith h.2 _ 0)

/-- Every node of a built tree has two children or none. -/
theorem branching_of_ofListings {listings : List Listing} {tree : Tree Node}
    (h : Tree.ofListings listings = .ok tree) :
    tree.map Node.label = .empty ∨ (tree.map Node.label).Branching := by
  obtain ⟨outlines, houtlines, hcomb⟩ := Listing.ofListings_eq_ok_iff.mp ⟨tree, h, rfl⟩
  rw [← hcomb]
  apply branching_comb
  intro t ht
  obtain ⟨outline, houtline, hmem⟩ := List.mem_flatten.mp ht
  obtain ⟨l, -, hl⟩ := exists_of_mem_of_forall₂ houtlines houtline
  exact Listing.branching_of_outline hl t hmem

/-- Two trees built from listings, whose labels have no line feed, have the same outline exactly
when they have the same shape and, node by node, the same labels. -/
theorem outline_determines_labels {listings₁ listings₂ : List Listing} {t₁ t₂ : Tree Node}
    (h₁ : Tree.ofListings listings₁ = .ok t₁) (h₂ : Tree.ofListings listings₂ = .ok t₂)
    (hlines₁ : ∀ node ∈ t₁.values, '\n' ∉ node.label.toList)
    (hlines₂ : ∀ node ∈ t₂.values, '\n' ∉ node.label.toList) :
    t₁.outline Node.label = t₂.outline Node.label ↔
      t₁.map Node.label = t₂.map Node.label := by
  have houtline : ∀ t : Tree Node, t.outline Node.label = (t.map Node.label).outline id := by
    intro t
    rw [Tree.outline_eq_drawing, Tree.outline_eq_drawing, Tree.drawing_map]
    rfl
  rw [houtline t₁, houtline t₂]
  refine ⟨fun h => ?_, fun h => by rw [h]⟩
  refine Tree.eq_of_outline_eq (branching_of_ofListings h₁) (branching_of_ofListings h₂) ?_ ?_ h
  · simpa [Tree.values_map] using hlines₁
  · simpa [Tree.values_map] using hlines₂

/-- One listing in which two assignments take a sum, and two listings with a sum and an assignment
each, with a name in place of a character. Only in the first tree the sums have their leaves in
common, so the trees differ in their nodes. The labels have bars, blanks and signs of their own. -/
theorem outline_determines_labels_signs :
    let common : Listing := ⟨#[
      ⟨1, .add, .identifier "b", .character '1', some 1⟩,
      ⟨2, .assign, .identifier "| └─a", .temporary 1, none⟩,
      ⟨3, .assign, .identifier "d", .temporary 1, none⟩]⟩
    let first : Listing := ⟨#[
      ⟨1, .add, .identifier "b", .identifier "1", some 1⟩,
      ⟨2, .assign, .identifier "| └─a", .temporary 1, none⟩]⟩
    let second : Listing := ⟨#[
      ⟨1, .add, .identifier "b", .identifier "1", some 1⟩,
      ⟨3, .assign, .identifier "d", .temporary 1, none⟩]⟩
    ∃ t₁ t₂, Tree.ofListings [common] = .ok t₁ ∧ Tree.ofListings [first, second] = .ok t₂ ∧
      t₁ ≠ t₂ ∧
      (∀ node ∈ t₁.values, '\n' ∉ node.label.toList) ∧
      (∀ node ∈ t₂.values, '\n' ∉ node.label.toList) ∧
      t₁.outline Node.label = t₂.outline Node.label ∧
      t₁.map Node.label = t₂.map Node.label := by
  intro common first second
  let sum (b c d : Nat) : Tree Node := .node ⟨d, "1: + (b 1)"⟩ (.leaf ⟨b, "b"⟩) (.leaf ⟨c, "1"⟩)
  let assigned : Tree Node := .node ⟨4, "2: := (| └─a ^1)"⟩ (.leaf ⟨0, "| └─a"⟩) (sum 1 2 3)
  let t₁ : Tree Node := .node ⟨8, "Triad"⟩ assigned
    (.node ⟨7, "3: := (d ^1)"⟩ (.leaf ⟨5, "d"⟩) (sum 1 2 6))
  let t₂ : Tree Node := .node ⟨10, "Triad"⟩ assigned
    (.node ⟨9, "3: := (d ^1)"⟩ (.leaf ⟨5, "d"⟩) (sum 6 7 8))
  have h₁ : Tree.ofListings [common] = .ok t₁ := by decide +kernel
  have h₂ : Tree.ofListings [first, second] = .ok t₂ := by decide +kernel
  have hlines₁ : ∀ node ∈ t₁.values, '\n' ∉ node.label.toList := by decide +kernel
  have hlines₂ : ∀ node ∈ t₂.values, '\n' ∉ node.label.toList := by decide +kernel
  have houtline : t₁.outline Node.label = t₂.outline Node.label := by decide +kernel
  exact ⟨t₁, t₂, h₁, h₂, by decide +kernel, hlines₁, hlines₂, houtline,
    (outline_determines_labels h₁ h₂ hlines₁ hlines₂).mp houtline⟩

end ThreeAddress
