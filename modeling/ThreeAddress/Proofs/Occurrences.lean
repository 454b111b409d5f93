import Mathlib.Algebra.BigOperators.Fin
import Mathlib.Data.Fintype.BigOperators
import Mathlib.Data.Fintype.Prod
import ThreeAddress.Proofs.Acyclicity
import ThreeAddress.Proofs.Reconstruction

/-!
# How often a triad occurs

A triad stands in a tree once for being at the top, and once more for every operand that takes its
result, wherever the triad of that operand stands. The law is a rearrangement: the nodes of a whole
tree are its root and, for each triad among them, the roots of the trees of its two operands
(`Expands.values_perm`). Counting either side gives occurrences as a sum over operands. The labels
of branches tell the triads apart, so the law can be read off the labels of a tree.

Without edits every result is taken once or not at all, so every triad occurs once, and so does
every operand that takes no result.
-/
namespace ThreeAddress

open Statement Expansion
open scoped List

/-! ## Nodes with and without children -/

namespace Tree

variable {α β γ : Type}

/-- The values of the nodes with children, in the order of a walk. -/
def branchValues : Tree α → List α
  | empty => []
  | node value left right =>
      if left.isEmpty && right.isEmpty then []
      else value :: (left.branchValues ++ right.branchValues)

/-- The values of the nodes without children, in the order of a walk. -/
def leafValues : Tree α → List α
  | empty => []
  | node value left right =>
      if left.isEmpty && right.isEmpty then [value] else left.leafValues ++ right.leafValues

theorem map_map (f : α → β) (g : β → γ) (t : Tree α) :
    (t.map f).map g = t.map fun value => g (f value) := by
  induction t with
  | empty => rfl
  | node value left right ihl ihr => simp only [map, ihl, ihr]

theorem branchValues_map (f : α → β) (t : Tree α) :
    (t.map f).branchValues = t.branchValues.map f := by
  induction t with
  | empty => rfl
  | node value left right ihl ihr =>
    simp only [map, branchValues, isEmpty_map, ihl, ihr]
    split <;> simp

theorem leafValues_map (f : α → β) (t : Tree α) : (t.map f).leafValues = t.leafValues.map f := by
  induction t with
  | empty => rfl
  | node value left right ihl ihr =>
    simp only [map, leafValues, isEmpty_map, ihl, ihr]
    split <;> simp

theorem branchValues_node {value : α} {left right : Tree α} (h : left.isEmpty = false) :
    (node value left right).branchValues = value :: (left.branchValues ++ right.branchValues) := by
  simp [branchValues, h]

theorem leafValues_node {value : α} {left right : Tree α} (h : left.isEmpty = false) :
    (node value left right).leafValues = left.leafValues ++ right.leafValues := by
  simp [leafValues, h]

/-- The only branches that joining adds are the nodes above the trees. -/
theorem branchValues_combWith (value : Nat → α) (n : Nat) {trees : List (Tree α)}
    (h : ∀ t ∈ trees, t.isEmpty = false) : (combWith value n trees).branchValues ~
      (List.range' n (trees.length - 1)).map value ++ trees.flatMap branchValues := by
  cases trees with
  | nil => exact .refl _
  | cons tree rest =>
    have htree := h tree List.mem_cons_self
    clear h
    simp only [combWith, List.length_cons, Nat.add_sub_cancel, List.flatMap_cons]
    induction rest generalizing n tree with
    | nil => simp [joinWith]
    | cons next rest ih =>
      refine (ih (n + 1) (node (value n) tree next) rfl).trans ?_
      rw [branchValues_node htree, List.length_cons, List.range'_succ, List.map_cons,
        List.cons_append, List.flatMap_cons, List.cons_append, List.append_assoc]
      exact List.perm_middle

/-- Joining keeps the leaves in order. -/
theorem leafValues_combWith (value : Nat → α) (n : Nat) {trees : List (Tree α)}
    (h : ∀ t ∈ trees, t.isEmpty = false) :
    (combWith value n trees).leafValues = trees.flatMap leafValues := by
  cases trees with
  | nil => rfl
  | cons tree rest =>
    have htree := h tree List.mem_cons_self
    clear h
    simp only [combWith, List.flatMap_cons]
    induction rest generalizing n tree with
    | nil => simp [joinWith]
    | cons next rest ih =>
      rw [joinWith, ih (n + 1) (node (value n) tree next) rfl, leafValues_node htree,
        List.flatMap_cons, List.append_assoc]

end Tree

theorem branchValues_comb {trees : List (Tree String)} (h : ∀ t ∈ trees, t.isEmpty = false) :
    (comb trees).branchValues ~
      List.replicate (trees.length - 1) jointLabel ++ trees.flatMap Tree.branchValues := by
  have hbranches := Tree.branchValues_combWith (fun _ => jointLabel) 0 h
  rwa [List.map_const', List.length_range'] at hbranches

theorem leafValues_comb {trees : List (Tree String)} (h : ∀ t ∈ trees, t.isEmpty = false) :
    (comb trees).leafValues = trees.flatMap Tree.leafValues :=
  Tree.leafValues_combWith _ _ h

/-! ## Labels of triads -/

theorem toList_label (t : Triad) :
    t.label.toList = Nat.toDigits 10 t.number ++ (':' :: ' ' :: t.text.toList) := by
  simp [Triad.label]

/-- A label starts with the number of its triad, so it tells triads with different numbers apart. -/
theorem number_eq_of_label_eq {s t : Triad} (h : s.label = t.label) : s.number = t.number := by
  have hlist := congrArg String.toList h
  rw [toList_label, toList_label] at hlist
  have hcolon : Char.isDigit ':' = false := by decide
  exact (Grammar.toDigits_unique hlist (Grammar.head?_cons_stop hcolon _)
    (Grammar.head?_cons_stop hcolon _)).1

theorem label_ne_jointLabel (t : Triad) : t.label ≠ jointLabel := by
  intro h
  have hlist := congrArg String.toList h
  rw [toList_label] at hlist
  obtain ⟨c, cs, hcs⟩ := List.exists_cons_of_ne_nil (Nat.toDigits_ne_nil (b := 10) (n := t.number))
  have hdigit := Grammar.isDigit_of_mem_toDigits c (hcs ▸ List.mem_cons_self)
  rw [hcs, List.cons_append] at hlist
  obtain rfl : c = 'T' := (List.cons.inj hlist).1
  exact absurd hdigit (by decide)

/-! ## The law of occurrences -/

namespace Expansion

variable {l : Listing}

/-- What stands at the root of the tree of an operand or of a triad. -/
def Origin.root : Origin l → Origin l
  | .triad place => .triad place
  | .operand place side =>
      match ((l.triadAt place).operand side).target?.bind l.indexOf? with
      | some producer => .triad producer
      | none => .operand place side

/-- What stands at the roots of the trees below a node. -/
def Origin.below : Origin l → List (Origin l)
  | .triad place => [root (.operand place .left), root (.operand place .right)]
  | .operand .. => []

/-- The nodes of a whole tree are its root and what stands below the nodes. -/
theorem Expands.values_perm {o : Origin l} {t : Tree (Origin l)} (h : Expands l o t) :
    t.values ~ o.root :: t.values.flatMap Origin.below := by
  induction h with
  | leaf hnone => simp [Tree.leaf, Tree.values, Origin.root, Origin.below, hnone]
  | producer htarget hfound _ ih => simpa [Origin.root, htarget, hfound] using ih
  | @triad place left right _ _ ihl ihr =>
    simp only [Tree.values, List.flatMap_cons, List.flatMap_append]
    refine .cons _ ?_
    calc left.values ++ right.values
        ~ (Origin.root (.operand place .left) :: left.values.flatMap Origin.below) ++
          (Origin.root (.operand place .right) :: right.values.flatMap Origin.below) :=
        ihl.append ihr
      _ ~ Origin.below (.triad place) ++
          (left.values.flatMap Origin.below ++ right.values.flatMap Origin.below) := by
        refine .cons _ ?_
        exact List.perm_middle

/-- Whole trees of some triads. -/
abbrev Forest (l : Listing) (roots : List (Fin l.triads.size)) (ts : List (Tree (Origin l))) :
    Prop := List.Forall₂ (fun root t => Expands l (.triad root) t) roots ts

theorem Forest.values_perm {roots : List (Fin l.triads.size)} {ts : List (Tree (Origin l))}
    (h : Forest l roots ts) : ts.flatMap Tree.values ~
      roots.map Origin.triad ++ (ts.flatMap Tree.values).flatMap Origin.below := by
  induction h with
  | nil => exact .refl _
  | cons hroot _ ih =>
    simp only [List.flatMap_cons, List.flatMap_append, List.map_cons, List.cons_append]
    refine (hroot.values_perm.append ih).trans (.cons _ ?_)
    exact List.perm_append_comm_assoc ..

def Origin.isTriad : Origin l → Bool
  | .triad _ => true
  | .operand .. => false

/-- In a whole tree the triads are the branches and the operands are the leaves. -/
theorem Expands.branches_and_leaves {o : Origin l} {t : Tree (Origin l)} (h : Expands l o t) :
    t.isEmpty = false ∧ t.branchValues = t.values.filter Origin.isTriad ∧
      t.leafValues = t.values.filter fun v => !v.isTriad := by
  induction h with
  | leaf => exact ⟨rfl, rfl, rfl⟩
  | producer _ _ _ ih => exact ih
  | triad _ _ ihl ihr =>
    obtain ⟨hleft, hbranchl, hleafl⟩ := ihl
    obtain ⟨-, hbranchr, hleafr⟩ := ihr
    refine ⟨rfl, ?_, ?_⟩
    · rw [Tree.branchValues_node hleft, hbranchl, hbranchr, Tree.values,
        List.filter_cons_of_pos rfl, List.filter_append]
    · rw [Tree.leafValues_node hleft, hleafl, hleafr, Tree.values,
        List.filter_cons_of_neg (by simp [Origin.isTriad]), List.filter_append]

end Expansion

instance : Fintype Side where
  elems := {.left, .right}
  complete side := by cases side <;> decide

theorem Side.sum_univ (f : Side → Nat) : ∑ side, f side = f .left + f .right := rfl

namespace Expansion

variable {l : Listing}

/-- What stands below the nodes of a list, counted by operands. -/
theorem count_flatMap_below (nodes : List (Origin l)) (v : Origin l) :
    (nodes.flatMap Origin.below).count v =
      ∑ slot : Fin l.triads.size × Side with Origin.root (.operand slot.1 slot.2) = v,
        nodes.count (.triad slot.1) := by
  induction nodes with
  | nil => simp
  | cons o nodes ih =>
    rw [List.flatMap_cons, List.count_append, ih, Nat.add_comm]
    simp only [List.count_cons, Finset.sum_add_distrib]
    congr 1
    cases o with
    | operand => simp [Origin.below]
    | triad place =>
      have hside : ∀ p : Fin l.triads.size, (∑ side,
          if Origin.root (.operand p side) = v then if place = p then 1 else 0 else 0) =
          if place = p then (Origin.below (.triad p)).count v else 0 := by
        intro p
        rw [Side.sum_univ]
        by_cases hp : place = p
        · simp [hp, Origin.below, List.count_cons, Nat.add_comm]
        · simp [hp]
      simp only [Finset.sum_filter, Fintype.sum_prod_type, beq_iff_eq, Origin.triad.injEq, hside,
        Finset.sum_ite_eq, Finset.mem_univ, if_true]

/-- In a framed listing the operands with a triad at their root are those that take its result. -/
theorem root_operand_eq_triad_iff (hl : l.Framed) {place i : Fin l.triads.size} {side : Side} :
    Origin.root (.operand place side) = .triad i ↔
      (l.triadAt place).operand side = .temporary (i.val + 1) := by
  constructor
  · intro h
    simp only [Origin.root] at h
    split at h
    · rename_i producer hproducer
      cases h
      obtain ⟨number, htarget, hfound⟩ := Option.bind_eq_some_iff.mp hproducer
      obtain ⟨k, rfl⟩ := Operand.exists_of_target? htarget
      rw [hl.indexOf?_eq_some_iff.mp hfound]
      exact Operand.target?_eq_some_iff.mp htarget
    · cases h
  · intro h
    have hfound : l.indexOf? (i.val + 1) = some i := hl.indexOf?_eq_some_iff.mpr rfl
    simp [Origin.root, Operand.target?_eq_some_iff.mpr h, hfound]

/-- The branches of joined whole trees are joints and triads, and the leaves are operands. -/
theorem Forest.labels {roots : List (Fin l.triads.size)} {ts : List (Tree (Origin l))}
    (h : Forest l roots ts) {tree : Tree Node}
    (htree : tree.map Node.label = comb (ts.map (Tree.map Origin.label))) :
    (tree.branchValues.map Node.label ~ List.replicate (roots.length - 1) jointLabel ++
      ((ts.flatMap Tree.values).filter Origin.isTriad).map Origin.label) ∧
    tree.leafValues.map Node.label =
      ((ts.flatMap Tree.values).filter fun v => !v.isTriad).map Origin.label := by
  have hparts : ∀ t ∈ ts, t.isEmpty = false ∧ t.branchValues = t.values.filter Origin.isTriad ∧
      t.leafValues = t.values.filter fun v => !v.isTriad := by
    intro t ht
    obtain ⟨root, -, hroot⟩ := exists_of_mem_of_forall₂ h ht
    exact hroot.branches_and_leaves
  have hfull : ∀ t ∈ ts.map (Tree.map Origin.label), t.isEmpty = false := by
    intro t ht
    obtain ⟨s, hs, rfl⟩ := List.mem_map.mp ht
    rw [Tree.isEmpty_map, (hparts s hs).1]
  rw [← Tree.branchValues_map, ← Tree.leafValues_map, htree, leafValues_comb hfull, h.length_eq,
    List.filter_flatMap, List.filter_flatMap, List.map_flatMap, List.map_flatMap]
  constructor
  · refine (branchValues_comb hfull).trans ?_
    rw [List.length_map, List.flatMap_map]
    refine .append_left _ (List.Perm.of_eq (List.flatMap_congr fun t ht => ?_))
    rw [Tree.branchValues_map, (hparts t ht).2.1]
  · rw [List.flatMap_map]
    refine List.flatMap_congr fun t ht => ?_
    rw [Tree.leafValues_map, (hparts t ht).2.2]

end Expansion

/-! ## Occurrences by label -/

namespace Listing

variable {l : Listing}

/-- How many branches of a tree have the label of a triad. -/
def occurrences (l : Listing) (tree : Tree Node) (i : Fin l.triads.size) : Nat :=
  (tree.branchValues.map Node.label).count (l.triadAt i).label

/-- The branches of a tree are the triads of a listing, none of them missing, and the joints between
the triads at the top. A triad occurs once for being at the top and once for every occurrence of an
operand that takes its result. -/
structure AccountedIn (l : Listing) (tree : Tree Node) : Prop where
  /-- A label on a branch tells which triad it is, or that it is none. -/
  distinct : ∀ i, (l.triadAt i).label ≠ jointLabel ∧
    ∀ j, (l.triadAt j).label = (l.triadAt i).label → j = i
  present : ∀ i, 0 < l.occurrences tree i
  law : ∀ i, l.occurrences tree i = (if i ∈ l.topLevel then 1 else 0) +
    ∑ slot : Fin l.triads.size × Side
      with (l.triadAt slot.1).operand slot.2 = .temporary (i.val + 1), l.occurrences tree slot.1
  others : ∀ label ∈ tree.branchValues.map Node.label,
    (∃ i, label = (l.triadAt i).label) ∨ label = jointLabel
  joints : (tree.branchValues.map Node.label).count jointLabel = l.topLevel.length - 1

theorem nodup_topLevel (l : Listing) : l.topLevel.Nodup := (List.nodup_finRange _).filter _

/-- A tree that is built joins the whole trees of the triads at the top, and no triad is missed. -/
theorem Framed.exists_forest (hl : l.Framed) {tree : Tree Node}
    (htree : Tree.ofListings [l] = .ok tree) :
    ∃ ts, Forest l l.topLevel ts ∧ (∀ i, .triad i ∈ ts.flatMap Tree.values) ∧
      tree.map Node.label = comb (ts.map (Tree.map Origin.label)) := by
  obtain ⟨outline, houtline, hlabels⟩ := ofListings_singleton_eq_ok_iff.mp ⟨tree, htree, rfl⟩
  obtain ⟨ts, hts, hall, rfl⟩ := outline_eq_ok_iff.mp houtline
  refine ⟨ts, hts.imp fun _ _ => expands_of_unfold, fun i => ?_, hlabels⟩
  obtain ⟨t, ht, hi⟩ := List.mem_flatMap.mp (hall i)
  exact List.mem_flatMap.mpr ⟨t, ht, hl.mem_values_of_mem_numbers hi⟩

theorem Framed.eq_of_label_eq (hl : l.Framed) {i j : Fin l.triads.size}
    (h : (l.triadAt j).label = (l.triadAt i).label) : j = i := by
  have hnumber := number_eq_of_label_eq h
  rw [hl.number, hl.number] at hnumber
  exact Fin.ext (by omega)

/-- The branches with the label of a triad are its nodes. -/
theorem Framed.occurrences_eq_count (hl : l.Framed) {tree : Tree Node} {ts : List (Tree (Origin l))}
    (hts : Forest l l.topLevel ts)
    (hlabels : tree.map Node.label = comb (ts.map (Tree.map Origin.label)))
    (i : Fin l.triads.size) : l.occurrences tree i = (ts.flatMap Tree.values).count (.triad i) := by
  have hjoint : List.count (l.triadAt i).label (List.replicate (l.topLevel.length - 1) jointLabel) =
      0 := by
    rw [List.count_eq_zero]
    intro hmem
    exact label_ne_jointLabel _ (List.eq_of_mem_replicate hmem)
  rw [occurrences, (hts.labels hlabels).1.count_eq, List.count_append, hjoint, Nat.zero_add,
    ← List.count_filter (p := Origin.isTriad) (a := .triad i) rfl, List.count_eq_countP,
    List.count_eq_countP, List.countP_map]
  refine List.countP_congr fun v hv => ?_
  obtain ⟨-, htriad⟩ := List.mem_filter.mp hv
  cases v with
  | operand => cases htriad
  | triad j =>
    simp only [Function.comp_apply, Origin.label, beq_iff_eq, Origin.triad.injEq]
    exact ⟨hl.eq_of_label_eq, fun h => h ▸ rfl⟩

theorem Framed.accountedIn (hl : l.Framed) {tree : Tree Node}
    (htree : Tree.ofListings [l] = .ok tree) : l.AccountedIn tree := by
  obtain ⟨ts, hts, hall, hlabels⟩ := hl.exists_forest htree
  have hcount := hl.occurrences_eq_count hts hlabels
  have hbranches := (hts.labels hlabels).1
  refine ⟨fun i => ⟨label_ne_jointLabel _, fun j => hl.eq_of_label_eq⟩, fun i => ?_, fun i => ?_,
    fun label hlabel => ?_, ?_⟩
  · rw [hcount, List.count_pos_iff]
    exact hall i
  · have hroots : (l.topLevel.map Origin.triad).count (.triad i) =
        if i ∈ l.topLevel then 1 else 0 := by
      rw [List.count_map_of_injective _ _ fun _ _ h => Origin.triad.inj h]
      exact l.nodup_topLevel.count
    rw [hcount, hts.values_perm.count_eq, List.count_append, hroots, count_flatMap_below]
    simp only [hcount, root_operand_eq_triad_iff hl]
  · rcases List.mem_append.mp (hbranches.mem_iff.mp hlabel) with hmem | hmem
    · exact .inr (List.eq_of_mem_replicate hmem)
    · obtain ⟨v, hv, rfl⟩ := List.mem_map.mp hmem
      obtain ⟨-, htriad⟩ := List.mem_filter.mp hv
      cases v with
      | operand => cases htriad
      | triad i => exact .inl ⟨i, rfl⟩
  · have htriads : List.count jointLabel
        (((ts.flatMap Tree.values).filter Origin.isTriad).map Origin.label) = 0 := by
      rw [List.count_eq_zero]
      intro hmem
      obtain ⟨v, hv, hjoint⟩ := List.mem_map.mp hmem
      obtain ⟨-, htriad⟩ := List.mem_filter.mp hv
      cases v with
      | operand => cases htriad
      | triad i => exact label_ne_jointLabel _ hjoint
    rw [hbranches.count_eq, List.count_append, htriads, List.count_replicate_self, Nat.add_zero]

/-! ## Without edits -/

theorem LinearUse.lt_of_takes (h : l.LinearUse) {i j : Fin l.triads.size} (hj : l.Takes j i) :
    i < j := by
  obtain ⟨side, hside⟩ := hj
  have hearlier := (h.earlier j side (i.val + 1) (by rw [hside]; rfl)).2
  rw [h.number j] at hearlier
  exact Fin.lt_def.mpr (by omega)

/-- When every result is used once, every triad stands in the tree once. -/
theorem LinearUse.occurrences_eq_one (h : l.LinearUse) {tree : Tree Node}
    (htree : Tree.ofListings [l] = .ok tree) (i : Fin l.triads.size) :
    l.occurrences tree i = 1 := by
  -- A result is taken by a later triad, so the induction goes from the last triad to the first.
  induction i using WellFoundedGT.induction with
  | _ i ih =>
    rw [(h.framed.accountedIn htree).law i]
    by_cases htop : i ∈ l.topLevel
    · have hnone : ∀ slot : Fin l.triads.size × Side,
          (l.triadAt slot.1).operand slot.2 ≠ .temporary (i.val + 1) := by
        intro slot hslot
        have htakes : l.Takes slot.1 i := ⟨slot.2, hslot⟩
        have hlast : i.val + 1 < l.triads.size := by
          have := h.lt_of_takes htakes
          have := slot.1.isLt
          omega
        exact h.framed.mem_topLevel_iff.mp htop hlast slot.1 htakes
      rw [if_pos htop, Finset.filter_false_of_mem fun slot _ => hnone slot, Finset.sum_empty,
        Nat.add_zero]
    · obtain ⟨hlast, j, side, hside⟩ : i.val + 1 < l.triads.size ∧ ∃ j, l.Takes j i := by
        simpa [h.framed.mem_topLevel_iff] using htop
      have hone : (Finset.univ.filter fun slot : Fin l.triads.size × Side =>
          (l.triadAt slot.1).operand slot.2 = .temporary (i.val + 1)) = {(j, side)} := by
        ext slot
        simp only [Finset.mem_filter, Finset.mem_univ, true_and, Finset.mem_singleton]
        constructor
        · intro hslot
          refine (h.once (i.val + 1) (by omega) hlast).unique ?_ ?_
          · rw [hslot]
            rfl
          · rw [hside]
            rfl
        · rintro rfl
          exact hside
      rw [if_neg htop, hone, Finset.sum_singleton, ih j (h.lt_of_takes ⟨side, hside⟩)]

end Listing

namespace Expansion

variable {l : Listing}

/-- The operand that a leaf stands for. -/
def Origin.slot? : Origin l → Option (Fin l.triads.size × Side)
  | .operand place side => some (place, side)
  | .triad _ => none

theorem map_label_operands (nodes : List (Origin l)) :
    (nodes.filter fun v => !v.isTriad).map Origin.label =
      (nodes.filterMap Origin.slot?).map fun slot => ((l.triadAt slot.1).operand slot.2).text := by
  induction nodes with
  | nil => rfl
  | cons v nodes ih =>
    cases v with
    | operand place side =>
      rw [List.filter_cons_of_pos rfl, List.map_cons, ih]
      rfl
    | triad place =>
      rw [List.filter_cons_of_neg (by simp [Origin.isTriad]), ih]
      rfl

theorem count_filterMap_slot? (nodes : List (Origin l)) (slot : Fin l.triads.size × Side) :
    (nodes.filterMap Origin.slot?).count slot = nodes.count (.operand slot.1 slot.2) := by
  rw [List.count_filterMap, List.count_eq_countP]
  refine List.countP_congr fun v _ => ?_
  cases v <;> simp [Origin.slot?, Prod.ext_iff]

end Expansion

namespace Listing

variable {l : Listing}

/-- When every temporary is kept, the operands at the root of their own trees are those that are no
temporaries. -/
theorem LinearUse.root_operand_eq_iff (h : l.LinearUse) {place p : Fin l.triads.size}
    {side s : Side} : Origin.root (.operand p s) = (.operand place side : Origin l) ↔
      (p, s) = (place, side) ∧ ((l.triadAt place).operand side).temporary? = none := by
  constructor
  · intro hroot
    have hself : (Origin.operand p s : Origin l) = .operand place side := by
      simp only [Origin.root] at hroot
      split at hroot
      · cases hroot
      · exact hroot
    cases hself
    refine ⟨rfl, Option.eq_none_iff_forall_ne_some.mpr fun k hk => ?_⟩
    -- A temporary would be kept by a triad, which would stand at the root.
    have hrange := h.earlier place side k (Operand.referenced?_of_temporary? hk)
    rw [h.number place] at hrange
    let i : Fin l.triads.size := ⟨k - 1, by omega⟩
    have hoperand : (l.triadAt place).operand side = .temporary (i.val + 1) := by
      have hi : i.val + 1 = k := by dsimp only [i]; omega
      rw [hi]
      exact Operand.temporary?_eq_some_iff.mp hk
    cases hroot.symm.trans ((root_operand_eq_triad_iff h.framed).mpr hoperand)
  · rintro ⟨hslot, hnone⟩
    cases hslot
    have htarget : ((l.triadAt place).operand side).target? = none := by
      cases ho : (l.triadAt place).operand side with
      | temporary k =>
        rw [ho] at hnone
        cases hnone
      | identifier | number | character | negated => rfl
    simp [Origin.root, htarget]

/-- When every result is used once, every operand that is no temporary is one leaf. -/
theorem LinearUse.exists_slots (h : l.LinearUse) {tree : Tree Node}
    (htree : Tree.ofListings [l] = .ok tree) :
    ∃ slots : List (Fin l.triads.size × Side), slots.Nodup ∧
      (∀ slot, slot ∈ slots ↔ ((l.triadAt slot.1).operand slot.2).temporary? = none) ∧
      tree.leafValues.map Node.label =
        slots.map fun slot => ((l.triadAt slot.1).operand slot.2).text := by
  obtain ⟨ts, hts, -, hlabels⟩ := h.framed.exists_forest htree
  have hone : ∀ i, (ts.flatMap Tree.values).count (.triad i) = 1 := by
    intro i
    rw [← h.framed.occurrences_eq_count hts hlabels]
    exact h.occurrences_eq_one htree i
  have hcount : ∀ slot, ((ts.flatMap Tree.values).filterMap Origin.slot?).count slot =
      if ((l.triadAt slot.1).operand slot.2).temporary? = none then 1 else 0 := by
    intro slot
    have hroots : (l.topLevel.map Origin.triad).count (.operand slot.1 slot.2) = 0 := by
      simp [List.count_eq_zero]
    rw [count_filterMap_slot?, hts.values_perm.count_eq, List.count_append, hroots, Nat.zero_add,
      count_flatMap_below]
    simp only [hone, h.root_operand_eq_iff, Prod.mk.eta]
    split
    · rename_i hnone
      simp [hnone, Finset.filter_eq']
    · rename_i hsome
      simp [hsome]
  refine ⟨(ts.flatMap Tree.values).filterMap Origin.slot?, ?_, fun slot => ?_, ?_⟩
  · rw [List.nodup_iff_count_le_one]
    intro slot
    rw [hcount]
    split <;> omega
  · rw [← List.count_pos_iff, hcount]
    split
    · exact iff_of_true Nat.one_pos (by assumption)
    · exact iff_of_false (Nat.lt_irrefl 0) (by assumption)
  · rw [← map_label_operands, (hts.labels hlabels).2]

end Listing

/-- After reading and any run of edits, a tree that is built has every triad at least once, as often
as the law of occurrences says, and no other branches than triads and joints. Without edits there
is a tree, it has every triad once, and every operand that is no temporary is one leaf of it. -/
theorem edited_tree_accounts_for_triads {source : String} {l : Listing} (h : parse source = .ok l) :
    (∀ edits tree, Tree.ofListings [l.afterEdits edits] = .ok tree →
      (l.afterEdits edits).AccountedIn tree) ∧
    ∃ tree, Tree.ofListings [l] = .ok tree ∧ (∀ i, l.occurrences tree i = 1) ∧
      ∃ slots : List (Fin l.triads.size × Side), slots.Nodup ∧
        (∀ slot, slot ∈ slots ↔ ((l.triadAt slot.1).operand slot.2).temporary? = none) ∧
        tree.leafValues.map Node.label =
          slots.map fun slot => ((l.triadAt slot.1).operand slot.2).text := by
  refine ⟨fun edits tree htree => (framed_of_parse h edits).accountedIn htree, ?_⟩
  obtain ⟨a, -, -, rfl⟩ := exists_assignment_of_parse h
  obtain ⟨tree, htree, -⟩ := a.ofListings_listing
  exact ⟨tree, htree, a.linearUse_listing.occurrences_eq_one htree,
    a.linearUse_listing.exists_slots htree⟩

/-- A sum that takes the product twice, so that the product and the leaves below it occur twice. -/
theorem edited_tree_accounts_for_triads_twice :
    ∃ l tree, parse "a:=b+c*d;" = .ok l ∧
      Tree.ofListings [l.afterEdits [⟨2, .left, .temporary 1⟩]] = .ok tree ∧
      (l.afterEdits [⟨2, .left, .temporary 1⟩]).AccountedIn tree ∧
      tree.branchValues.map Node.label =
        ["3: := (a ^2)", "2: + (^1 ^1)", "1: * (c d)", "1: * (c d)"] ∧
      ∃ tree, Tree.ofListings [l] = .ok tree ∧ ∀ i, l.occurrences tree i = 1 := by
  let l : Listing := ⟨#[
    ⟨1, .multiply, .identifier "c", .identifier "d", some 1⟩,
    ⟨2, .add, .identifier "b", .temporary 1, some 2⟩,
    ⟨3, .assign, .identifier "a", .temporary 2, none⟩]⟩
  let product (stamp : Nat) : Tree Node :=
    .node ⟨stamp, "1: * (c d)"⟩ (.leaf ⟨1, "c"⟩) (.leaf ⟨2, "d"⟩)
  let shared : Tree Node :=
    .node ⟨6, "3: := (a ^2)"⟩ (.leaf ⟨0, "a"⟩)
      (.node ⟨5, "2: + (^1 ^1)"⟩ (product 3) (product 4))
  have h : parse "a:=b+c*d;" = .ok l := by decide +kernel
  have hshared : Tree.ofListings [l.afterEdits [⟨2, .left, .temporary 1⟩]] = .ok shared := by
    decide +kernel
  obtain ⟨hedited, tree, htree, hone, -⟩ := edited_tree_accounts_for_triads h
  exact ⟨l, shared, h, hshared, hedited _ _ hshared, rfl, tree, htree, hone⟩

end ThreeAddress
