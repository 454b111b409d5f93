import ThreeAddress.Proofs.Occurrences
import ThreeAddress.Proofs.Recursion

/-!
# Leaves that are kept

While the trees of a listing are made, the leaf of an operand is kept under the slot of the operand
and found there when the operand is met again. Branches are never kept. Every node that is made
takes a stamp that no node has, so stamps tell leaves of different slots apart, and a branch from
every other node.

`Keeps` says this of a part of the work, from one builder to a later one. It holds of a leaf and of
a branch (`Keeps.leaf`, `Keeps.stamped`), and parts that follow each other are one part
(`Keeps.trans`). Induction on the nodes made then gives it for a tree and for all trees of a
listing.
-/
namespace ThreeAddress

open Expansion

/-- Leaves kept under different slots are different nodes, and their stamps are given out. -/
structure Builder.Separates (b : Builder) : Prop where
  below : ∀ {slot : Nat} {node : Node}, b.leaves[slot]? = some node → node.stamp < b.stamps
  inj : ∀ {slot slot' : Nat} {node node' : Node}, b.leaves[slot]? = some node →
    b.leaves[slot']? = some node' → node.stamp = node'.stamp → slot = slot'

theorem Builder.separates_of_empty {b : Builder} (h : b.leaves = ∅) : b.Separates := by
  constructor <;> simp [h]

/-- A leaf with the next stamp can be added under any slot. -/
theorem Builder.Separates.insert {b : Builder} (h : b.Separates) {slot : Nat} {leaf : Node}
    (hleaf : leaf.stamp = b.stamps) :
    { b with stamps := b.stamps + 1, leaves := b.leaves.insert slot leaf }.Separates where
  below := by
    intro other node hnode
    rcases eq_or_of_getElem?_insert hnode with ⟨-, rfl⟩ | hkept
    · exact hleaf ▸ Nat.lt_succ_self _
    · exact Nat.lt_succ_of_lt (h.below hkept)
  inj := by
    intro s s' node node' hnode hnode' hsame
    rcases eq_or_of_getElem?_insert hnode with ⟨rfl, rfl⟩ | hkept <;>
      rcases eq_or_of_getElem?_insert hnode' with ⟨rfl, rfl⟩ | hkept'
    · rfl
    · have := h.below hkept'
      omega
    · have := h.below hkept
      omega
    · exact h.inj hkept hkept' hsame

/-- A slot without a leaf gets a new one. -/
theorem Builder.leafAt_of_none {b : Builder} {slot : Nat} (operand : Operand)
    (h : b.leaves[slot]? = none) : b.leafAt slot operand = (⟨b.stamps, operand.text⟩,
      { b with
        stamps := b.stamps + 1
        leaves := b.leaves.insert slot ⟨b.stamps, operand.text⟩ }) := by
  simp only [leafAt, h, stamped]

theorem Builder.leafAt_of_some {b : Builder} {slot : Nat} (operand : Operand) {node : Node}
    (h : b.leaves[slot]? = some node) :
    b.leafAt slot operand = (node, b.report (.reused operand)) := by
  simp only [leafAt, h]

namespace Expansion

variable {l : Listing}

/-- The node is the leaf kept for an operand. -/
def KeptFor (b : Builder) (o : Origin l) (node : Node) : Prop :=
  ∃ place side, o = .operand place side ∧ b.leaves[slot place side]? = some node

/-- What is known of a part of the work that starts from `b` and ends with `b'`: for the operands in
`origins` the leaves in `nodes` were found or made, and branches were made with the stamps in
`branches`. -/
structure Keeps (b : Builder) (origins : List (Origin l)) (nodes : List Node) (branches : List Nat)
    (b' : Builder) : Prop where
  separates : b'.Separates
  le : b.stamps ≤ b'.stamps
  /-- A leaf stays the same. -/
  kept : ∀ {slot : Nat} {node : Node}, b.leaves[slot]? = some node → b'.leaves[slot]? = some node
  /-- A leaf that was not there has a new stamp. -/
  new : ∀ {slot : Nat} {node : Node}, b'.leaves[slot]? = some node →
    b.leaves[slot]? = some node ∨ b.stamps ≤ node.stamp
  leaves : List.Forall₂ (KeptFor b') origins nodes
  nodup : branches.Nodup
  range : ∀ stamp ∈ branches, b.stamps ≤ stamp ∧ stamp < b'.stamps
  /-- No branch is a leaf. -/
  apart : ∀ {slot : Nat} {node : Node}, b'.leaves[slot]? = some node → node.stamp ∉ branches

namespace Keeps

variable {b b' b'' : Builder} {origins origins' : List (Origin l)} {nodes nodes' : List Node}
  {branches branches' : List Nat}

theorem refl (h : b.Separates) : Keeps (l := l) b [] [] [] b where
  separates := h
  le := Nat.le_refl _
  kept := id
  new := .inl
  leaves := .nil
  nodup := .nil
  range := by simp
  apart := by simp

/-- Only the leaves and the stamps of the first builder matter. -/
theorem of_eq {c : Builder} (h : Keeps c origins nodes branches b') (hleaves : c.leaves = b.leaves)
    (hstamps : c.stamps = b.stamps) : Keeps b origins nodes branches b' where
  separates := h.separates
  le := hstamps ▸ h.le
  kept := hleaves ▸ h.kept
  new := by
    rw [← hleaves, ← hstamps]
    exact h.new
  leaves := h.leaves
  nodup := h.nodup
  range := hstamps ▸ h.range
  apart := h.apart

/-- The leaf of an operand is the one that is kept from then on. -/
theorem leaf (h : b.Separates) (place : Fin l.triads.size) (side : Side) :
    Keeps b [.operand place side]
      [(b.leafAt (slot place side) ((l.triadAt place).operand side)).1] []
      (b.leafAt (slot place side) ((l.triadAt place).operand side)).2 := by
  cases hkept : b.leaves[slot place side]? with
  | some node =>
    rw [Builder.leafAt_of_some _ hkept]
    -- A report changes neither the leaves nor the stamps.
    have hreport (event : Event) : Keeps (l := l) b [] [] [] (b.report event) :=
      (refl (b := b.report event) ⟨h.below, h.inj⟩).of_eq rfl rfl
    exact { hreport _ with leaves := .cons ⟨place, side, rfl, hkept⟩ .nil }
  | none =>
    rw [Builder.leafAt_of_none _ hkept]
    generalize hnode : (⟨b.stamps, ((l.triadAt place).operand side).text⟩ : Node) = node
    have hstamp : node.stamp = b.stamps := by rw [← hnode]
    refine ⟨h.insert hstamp, Nat.le_succ _, ?_, ?_, .cons ⟨place, side, rfl, ?_⟩ .nil, .nil, by simp,
      by simp⟩
    · intro other found hfound
      rw [Std.TreeMap.getElem?_insert]
      split
      · rename_i hslot
        rw [← Std.LawfulEqCmp.eq_of_compare hslot, hkept] at hfound
        cases hfound
      · exact hfound
    · intro other found hfound
      rcases eq_or_of_getElem?_insert hfound with ⟨-, rfl⟩ | hfound
      · exact .inr hstamp.ge
      · exact .inl hfound
    · simp

/-- A branch takes the next stamp and is kept nowhere. -/
theorem stamped (h : Keeps b origins nodes branches b') (label : String) :
    Keeps b origins nodes ((b'.stamped label).1.stamp :: branches) (b'.stamped label).2 where
  separates := ⟨fun hnode => Nat.lt_succ_of_lt (h.separates.below hnode), h.separates.inj⟩
  le := Nat.le_succ_of_le h.le
  kept := h.kept
  new := h.new
  leaves := h.leaves
  nodup := by
    refine List.nodup_cons.mpr ⟨fun hmem => ?_, h.nodup⟩
    exact Nat.lt_irrefl _ (h.range _ hmem).2
  range := by
    intro stamp hstamp
    rcases List.mem_cons.mp hstamp with rfl | hstamp
    · exact ⟨h.le, Nat.lt_succ_self _⟩
    · exact ⟨(h.range stamp hstamp).1, Nat.lt_succ_of_lt (h.range stamp hstamp).2⟩
  apart := by
    intro slot node hnode hmem
    rcases List.mem_cons.mp hmem with hnew | hmem
    · exact Nat.ne_of_lt (h.separates.below hnode) hnew
    · exact h.apart hnode hmem

/-- Two parts of the work, one after the other. -/
theorem trans (h : Keeps b origins nodes branches b')
    (h' : Keeps b' origins' nodes' branches' b'') :
    Keeps b (origins ++ origins') (nodes ++ nodes') (branches ++ branches') b'' where
  separates := h'.separates
  le := h.le.trans h'.le
  kept := fun hnode => h'.kept (h.kept hnode)
  new := by
    intro slot node hnode
    rcases h'.new hnode with hold | hlater
    · exact h.new hold
    · exact .inr (h.le.trans hlater)
  leaves := by
    refine List.rel_append (h.leaves.imp ?_) h'.leaves
    rintro o node ⟨place, side, ho, hnode⟩
    exact ⟨place, side, ho, h'.kept hnode⟩
  nodup := by
    refine h.nodup.append h'.nodup fun stamp hfirst hsecond => ?_
    exact Nat.lt_irrefl _ ((h.range stamp hfirst).2.trans_le (h'.range stamp hsecond).1)
  range := by
    intro stamp hstamp
    rcases List.mem_append.mp hstamp with hstamp | hstamp
    · exact ⟨(h.range stamp hstamp).1, (h.range stamp hstamp).2.trans_le h'.le⟩
    · exact ⟨h.le.trans (h'.range stamp hstamp).1, (h'.range stamp hstamp).2⟩
  apart := by
    intro slot node hnode hmem
    rcases List.mem_append.mp hmem with hfirst | hsecond
    · -- A leaf that the second part made comes after all branches of the first.
      rcases h'.new hnode with hold | hlater
      · exact h.apart hold hfirst
      · exact Nat.lt_irrefl _ ((h.range _ hfirst).2.trans_le hlater)
    · exact h'.apart hnode hsecond

end Keeps

theorem Makes.isEmpty {b b' : Builder} {t : Tree (Origin l)} {tree : Tree Node}
    (h : Makes l b t tree b') : t.isEmpty = false := by
  cases h <;> rfl

theorem Makes.keeps {b b' : Builder} {t : Tree (Origin l)} {tree : Tree Node}
    (h : Makes l b t tree b') (hb : b.Separates) :
    Keeps b t.leafValues tree.leafValues (tree.branchValues.map Node.stamp) b' := by
  induction h with
  | leaf b place side => exact .leaf hb place side
  | triad left_makes right_makes ihl ihr =>
    have hleft := ihl ⟨hb.below, hb.inj⟩
    have hright := ihr hleft.separates
    rw [Tree.leafValues_node left_makes.isEmpty, Tree.leafValues_node left_makes.full.1,
      Tree.branchValues_node left_makes.full.1, List.map_cons, List.map_append]
    exact ((hleft.trans hright).stamped _).of_eq rfl rfl

end Expansion

theorem MakesAll.isEmpty {l : Listing} {b b' : Builder} {ts : List (Tree (Origin l))}
    {trees : List (Tree Node)} (h : MakesAll l b ts trees b') :
    ∀ tree ∈ trees, tree.isEmpty = false := by
  induction h with
  | nil => simp
  | cons first _ ih => exact List.forall_mem_cons.mpr ⟨first.full.1, ih⟩

theorem MakesAll.keeps {l : Listing} {b b' : Builder} {ts : List (Tree (Origin l))}
    {trees : List (Tree Node)} (h : MakesAll l b ts trees b') (hb : b.Separates) :
    Keeps b (ts.flatMap Tree.leafValues) (trees.flatMap Tree.leafValues)
      ((trees.flatMap Tree.branchValues).map Node.stamp) b' := by
  induction h with
  | nil b => exact .refl hb
  | cons first others ih =>
    have hfirst := first.keeps ⟨hb.below, hb.inj⟩
    have hothers := ih hfirst.separates
    rw [List.flatMap_cons, List.flatMap_cons, List.flatMap_cons, List.map_append]
    exact (hfirst.trans hothers).of_eq rfl rfl

end ThreeAddress
