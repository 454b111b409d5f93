import Mathlib.Data.List.Sort
import ThreeAddress.Proofs.ExprTree
import ThreeAddress.Proofs.LinearUse
import ThreeAddress.Proofs.Outline

/-!
# The tree of a statement

The listing of a statement gives back its expression. The triads at the top are the operations
directly under a change of sign and the assignment, because the result of an operation is taken as
it is exactly when the operation is not one of those. Their trees, in the order of their numbers,
are joined from left to right, and no triad is missed.
-/
namespace ThreeAddress

open Grammar Statement Expansion

/-! ## Triads at the top -/

/-- The temporaries that are operands of triads as they are. -/
def taken (triads : List Triad) : List Nat :=
  triads.flatMap fun t => t.operands.filterMap Operand.temporary?

theorem mem_taken_append {xs ys : List Triad} {k : Nat} :
    k ∈ taken (xs ++ ys) ↔ k ∈ taken xs ∨ k ∈ taken ys := by
  simp only [taken, List.flatMap_append, List.mem_append]

theorem mem_taken_singleton {t : Triad} {k : Nat} :
    k ∈ taken [t] ↔ t.left.temporary? = some k ∨ t.right.temporary? = some k := by
  simp [taken, Triad.operands]

theorem Operand.referenced?_of_temporary? {o : Operand} {k : Nat} (h : o.temporary? = some k) :
    o.referenced? = some k := by
  cases o <;> first | exact h | cases h

namespace Expr

theorem number_of_mem_triads {e : Expr} {n : Nat} {t : Triad} (h : t ∈ e.triads n) :
    n < t.number ∧ t.number ≤ n + e.operations := by
  have hmem := List.mem_map_of_mem (f := Triad.number) h
  rw [map_number_triads, List.mem_range'_1] at hmem
  omega

theorem number_of_mem_taken {e : Expr} {n k : Nat} (h : k ∈ taken (e.triads n)) :
    n < k ∧ k < n + e.operations := by
  obtain ⟨t, ht, hk⟩ := List.mem_flatMap.mp h
  obtain ⟨o, ho, hk⟩ := List.mem_filterMap.mp hk
  have hearlier := referenced?_of_mem_triads ht ho (Operand.referenced?_of_temporary? hk)
  have := number_of_mem_triads ht
  omega

theorem mem_taken_operation {op : BinaryOperator} {left right : Expr} {n k : Nat} :
    k ∈ taken ((operation op left right).triads n) ∨
        ((operation op left right).operand n).temporary? = some k ↔
      (k ∈ taken (left.triads n) ∨ (left.operand n).temporary? = some k) ∨
        (k ∈ taken (right.triads (n + left.operations)) ∨
          (right.operand (n + left.operations)).temporary? = some k) ∨
        n + left.operations + right.operations + 1 = k := by
  simp only [triads, mem_taken_append, mem_taken_singleton, triadOf, operand, Operand.temporary?,
    Option.some.injEq]
  tauto

/-- The result of an operation is taken as it is, by another one or by whatever uses the
expression, unless the operation stands under a change of sign. -/
theorem mem_taken_iff {e : Expr} {n k : Nat} :
    k ∈ taken (e.triads n) ∨ (e.operand n).temporary? = some k ↔
      (n < k ∧ k ≤ n + e.operations) ∧ ∀ o ∈ e.negated n, o.number ≠ k := by
  induction e generalizing n with
  | term t =>
    have hnone : (t.operand).temporary? = none := by cases t <;> rfl
    simp only [triads, operand, hnone, operations, taken, List.flatMap_nil, List.not_mem_nil,
      reduceCtorEq, or_self, false_iff]
    omega
  | negation e ih =>
    have ih := ih (n := n)
    simp only [mem_negated_negation, triads, operand, Operand.temporary?, operations, reduceCtorEq,
      or_false]
    by_cases hop : e.isOperation
    · rw [operand_of_isOperation hop] at ih
      constructor
      · intro h
        obtain ⟨hrange, hneg⟩ := ih.mp (.inl h)
        refine ⟨hrange, ?_⟩
        rintro o (ho | ⟨-, rfl⟩)
        · exact hneg o ho
        · -- A triad takes results of earlier ones only, so not that of the last.
          have := number_of_mem_taken h
          simp only [Occurrence.number]
          omega
      · rintro ⟨hrange, hneg⟩
        rcases ih.mpr ⟨hrange, fun o ho => hneg o (.inl ho)⟩ with h | h
        · exact h
        · exact absurd (Option.some.inj h) (hneg ⟨n, e⟩ (.inr ⟨hop, rfl⟩))
    · rw [temporary?_operand_of_not_isOperation hop] at ih
      simpa [hop] using ih
  | operation op left right ihl ihr =>
    rw [mem_taken_operation, ihl, ihr]
    simp only [negated, List.mem_append, operations]
    constructor
    · -- The numbers on one side are none of those on the other.
      rintro (⟨hrange, hneg⟩ | ⟨hrange, hneg⟩ | rfl)
      · refine ⟨by omega, ?_⟩
        rintro o (ho | ho)
        · exact hneg o ho
        · have := number_of_mem_negated ho
          omega
      · refine ⟨by omega, ?_⟩
        rintro o (ho | ho)
        · have := number_of_mem_negated ho
          omega
        · exact hneg o ho
      · refine ⟨by omega, ?_⟩
        rintro o (ho | ho)
        · have := number_of_mem_negated ho
          omega
        · have := number_of_mem_negated ho
          omega
    · rintro ⟨hrange, hneg⟩
      by_cases hleft : k ≤ n + left.operations
      · exact .inl ⟨⟨hrange.1, hleft⟩, fun o ho => hneg o (.inl ho)⟩
      · by_cases hright : k ≤ n + left.operations + right.operations
        · exact .inr (.inl ⟨⟨by omega, hright⟩, fun o ho => hneg o (.inr ho)⟩)
        · exact .inr (.inr (by omega))

end Expr

/-- A triad that stands at its number is found there. -/
theorem Listing.get?_number {l : Listing} (hnumber : ∀ i : Fin l.triads.size,
    (l.triadAt i).number = i + 1) (i : Fin l.triads.size) :
    l.get? (i + 1) = some (l.triadAt i) := by
  rw [Listing.get?, Listing.indexOf?_of_number (hnumber i)]
  rfl

/-- What is known of a tree at the top: the number of its triad, its labels, and the numbers of all
triads in it. -/
structure Root where
  number : Nat
  tree : Tree String
  reached : List Nat

def Occurrence.root (o : Occurrence) : Root := ⟨o.number, o.tree, o.reached⟩

namespace Assignment

/-- The branch of the assignment itself. -/
def branch (a : Assignment) : Tree String :=
  .node a.closing.label (.leaf a.target.operand.text) (a.value.tree 0)

/-- The labels of a statement. -/
def tree (a : Assignment) : Tree String :=
  comb ((a.value.negated 0).map Occurrence.tree ++ [a.branch])

def roots (a : Assignment) : List Root :=
  (a.value.negated 0).map Occurrence.root ++
    [⟨a.closing.number, a.branch, a.closing.number :: a.value.reached 0⟩]

theorem mem_roots {a : Assignment} {root : Root} (h : root ∈ a.roots) :
    (∃ o ∈ a.value.negated 0, root = o.root) ∨
      root = ⟨a.closing.number, a.branch, a.closing.number :: a.value.reached 0⟩ := by
  rw [roots, List.mem_append, List.mem_map, List.mem_singleton] at h
  rcases h with ⟨o, ho, rfl⟩ | h
  · exact .inl ⟨o, ho, rfl⟩
  · exact .inr h

theorem mem_map_number_roots {a : Assignment} {k : Nat} :
    k ∈ a.roots.map Root.number ↔
      (∃ o ∈ a.value.negated 0, o.number = k) ∨ k = a.value.operations + 1 := by
  simp [roots, Occurrence.root, closing]

theorem pairwise_number_roots (a : Assignment) :
    (a.roots.map Root.number).Pairwise (· < ·) := by
  rw [roots, List.map_append, List.map_map, List.pairwise_append]
  refine ⟨a.value.pairwise_number_negated 0, List.pairwise_singleton _ _, ?_⟩
  intro k hk k' hk'
  obtain ⟨o, ho, rfl⟩ := List.mem_map.mp hk
  obtain rfl := List.mem_singleton.mp hk'
  have := Expr.number_of_mem_negated ho
  simp only [Function.comp_apply, Occurrence.root, closing]
  omega

theorem mem_consumed_listing {a : Assignment} {k : Nat} :
    k ∈ a.listing.consumed ↔ (0 < k ∧ k ≤ a.value.operations) ∧
      ∀ o ∈ a.value.negated 0, o.number ≠ k := by
  have hleft : a.closing.left.temporary? = none := by
    unfold closing
    cases a.target <;> rfl
  have htaken : k ∈ a.listing.consumed ↔ k ∈ taken a.triads := NumberSet.mem_ofList_iff
  rw [htaken, triads, mem_taken_append, mem_taken_singleton, hleft]
  have hvalue := a.value.mem_taken_iff (n := 0) (k := k)
  simpa [closing] using hvalue

theorem mem_topLevel_listing {a : Assignment} {place : Fin a.listing.triads.size} :
    place ∈ a.listing.topLevel ↔ place.val + 1 ∈ a.roots.map Root.number := by
  have hsize := a.size_triads_listing
  have hplace := place.isLt
  rw [Listing.topLevel, List.mem_filter, mem_map_number_roots]
  simp only [List.mem_finRange, true_and]
  by_cases hlast : place.val + 1 < a.listing.triads.size
  · rw [(a.linearUse_listing.operation place hlast).2, a.number_triads_listing]
    change (!a.listing.consumed.contains (place.val + 1)) = true ↔ _
    rw [Bool.not_eq_true', ← Bool.not_eq_true, NumberSet.contains_iff_mem, mem_consumed_listing]
    constructor
    · intro h
      by_contra hnone
      exact h ⟨by omega, fun o ho hk => hnone (.inl ⟨o, ho, hk⟩)⟩
    · rintro (⟨o, ho, hk⟩ | hk) ⟨hrange, hneg⟩
      · exact hneg o ho hk
      · omega
  · obtain ⟨last, hback, -, hresult⟩ := a.linearUse_listing.closing
    rw [Listing.triadAt_eq_of_last? hback place hlast, hresult]
    exact iff_of_true rfl (.inr (by omega))

/-- The places at the top are those of the roots, in the same order. -/
theorem map_topLevel_listing (a : Assignment) :
    a.listing.topLevel.map (fun place => place.val + 1) = a.roots.map Root.number := by
  have hascend : (a.listing.topLevel.map fun place => place.val + 1).Pairwise (· < ·) := by
    rw [List.pairwise_map]
    refine ((List.pairwise_lt_finRange _).filter _).imp fun {i j} hij => ?_
    have : i.val < j.val := hij
    omega
  refine hascend.eq_of_mem_iff a.pairwise_number_roots fun k => ?_
  rw [List.mem_map]
  constructor
  · rintro ⟨place, hplace, rfl⟩
    exact mem_topLevel_listing.mp hplace
  · intro hk
    have hrange : 0 < k ∧ k ≤ a.value.operations + 1 := by
      rcases mem_map_number_roots.mp hk with ⟨o, ho, rfl⟩ | rfl
      · have := Expr.number_of_mem_negated ho
        omega
      · omega
    have hsize := a.size_triads_listing
    have hplace : k - 1 + 1 = k := by omega
    exact ⟨⟨k - 1, by omega⟩, mem_topLevel_listing.mpr (by rwa [hplace]), hplace⟩

theorem get?_number {a : Assignment} {t : Triad} (h : t ∈ a.triads) :
    a.listing.get? t.number = some t := by
  obtain ⟨place, rfl⟩ := Listing.mem_toList_triads.mp (a.toList_triads_listing ▸ h)
  rw [a.number_triads_listing]
  exact Listing.get?_number a.number_triads_listing place

/-- A triad of the statement stands at the place that its number names. -/
theorem triadAt_eq {a : Assignment} {t : Triad} (h : t ∈ a.triads)
    {place : Fin a.listing.triads.size} (hplace : place.val + 1 = t.number) :
    a.listing.triadAt place = t := by
  have hget := Listing.get?_number a.number_triads_listing place
  rw [hplace, get?_number h] at hget
  exact (Option.some.inj hget).symm

/-- The recursion gives every root from its place. -/
theorem gives_root {a : Assignment} {root : Root} (h : root ∈ a.roots)
    {place : Fin a.listing.triads.size} (hplace : place.val + 1 = root.number) :
    Gives (Expansion.unfold a.listing [] place) root.tree root.reached := by
  have hvalue : ∀ t ∈ a.value.triads 0, a.listing.get? t.number = some t := fun t ht =>
    get?_number (List.mem_append_left _ ht)
  rcases mem_roots h with ⟨⟨n, e⟩, ho, rfl⟩ | rfl
  · obtain ⟨hop, hsub⟩ := Expr.triads_of_mem_negated ho
    cases e with
    | term | negation => cases hop
    | operation op left right =>
      simp only [Expr.triads, List.mem_append, List.mem_singleton] at hsub
      have htriad := List.mem_append_left [a.closing] (hsub _ (.inr rfl))
      have hnumber : place.val + 1 = (Expr.triadOf n op left right).number := by
        simp only [Occurrence.root, Occurrence.number, Expr.operations] at hplace
        simp only [Expr.triadOf]
        omega
      exact gives_unfold_triadOf (resolves_of_get? fun t ht => hvalue t (hsub t (.inl (.inl ht))))
        (resolves_of_get? fun t ht => hvalue t (hsub t (.inl (.inr ht))))
        (triadAt_eq htriad hnumber) fun _ hmem => absurd hmem List.not_mem_nil
  · have hclosing : a.listing.triadAt place = a.closing :=
      triadAt_eq (List.mem_append_right _ List.mem_cons_self) hplace
    have htarget : ((a.listing.triadAt place).operand .left).target? = none := by
      rw [hclosing]
      unfold closing Triad.operand
      cases a.target <;> rfl
    have hlater : ∀ number ∈ [(a.listing.triadAt place).number],
        0 + a.value.operations < number := by
      intro number hmem
      rw [List.mem_singleton.mp hmem, hclosing]
      simp only [closing]
      omega
    have hgives := gives_unfold List.not_mem_nil (gives_leaf htarget)
      (resolves_of_get? hvalue _ place .right hlater (by rw [hclosing]; rfl))
    rwa [hclosing] at hgives

end Assignment

theorem mapM_unfold_of_gives {l : Listing} {places : List (Fin l.triads.size)} {roots : List Root}
    (hnumber : places.map (fun place => place.val + 1) = roots.map Root.number)
    (hgives : ∀ root ∈ roots, ∀ place : Fin l.triads.size, place.val + 1 = root.number →
      Gives (Expansion.unfold l [] place) root.tree root.reached) :
    ∃ ts, places.mapM (Expansion.unfold l []) = .ok ts ∧
      ts.map (Tree.map Origin.label) = roots.map Root.tree ∧
      ts.flatMap numbers = roots.flatMap Root.reached := by
  induction roots generalizing places with
  | nil =>
    obtain rfl := List.map_eq_nil_iff.mp hnumber
    exact ⟨[], rfl, rfl, rfl⟩
  | cons root roots ih =>
    obtain ⟨place, places, rfl, hplace, hplaces⟩ := List.map_eq_cons_iff.mp hnumber
    obtain ⟨t, ht, hlabels, hreached⟩ := hgives root (by simp) place hplace
    obtain ⟨ts, hts, hlabels', hreached'⟩ := ih hplaces fun r hr => hgives r (by simp [hr])
    refine ⟨t :: ts, ?_, ?_, ?_⟩
    · rw [List.mapM_cons, ht, hts]
      rfl
    · rw [List.map_cons, List.map_cons, hlabels, hlabels']
    · rw [List.flatMap_cons, List.flatMap_cons, hreached, hreached']

namespace Assignment

/-- Every triad of the statement is in the tree of some root. -/
theorem mem_reached_roots {a : Assignment} {k : Nat} (hpos : 0 < k)
    (hle : k ≤ a.value.operations + 1) : k ∈ a.roots.flatMap Root.reached := by
  rw [List.mem_flatMap]
  have hclosing : ⟨a.closing.number, a.branch, a.closing.number :: a.value.reached 0⟩ ∈ a.roots :=
    List.mem_append_right _ List.mem_cons_self
  by_cases hlast : k = a.closing.number
  · exact ⟨_, hclosing, hlast ▸ List.mem_cons_self⟩
  · have hvalue : k ≤ 0 + a.value.operations := by
      simp only [closing] at hlast
      omega
    rcases Expr.mem_reached hpos hvalue with h | ⟨o, ho, h⟩
    · exact ⟨_, hclosing, List.mem_cons_of_mem _ h⟩
    · exact ⟨o.root, List.mem_append_left _ (List.mem_map_of_mem ho), h⟩

theorem outline_listing (a : Assignment) :
    a.listing.outline = .ok ((a.value.negated 0).map Occurrence.tree ++ [a.branch]) := by
  obtain ⟨ts, hts, hlabels, hreached⟩ :=
    mapM_unfold_of_gives a.map_topLevel_listing fun root hroot place => gives_root hroot
  have hall : a.listing.unvisited? (.ofList (ts.flatMap numbers)) = none := by
    rw [Listing.unvisited?, Array.find?_eq_none]
    intro t ht
    obtain ⟨place, rfl⟩ := Listing.mem_toList_triads.mp (Array.mem_toList_iff.mpr ht)
    have hplace := place.isLt
    have hsize := a.size_triads_listing
    have hmem : (a.listing.triadAt place).number ∈ ts.flatMap numbers := by
      rw [hreached, a.number_triads_listing]
      exact mem_reached_roots (by omega) (by omega)
    simp [NumberSet.contains_iff_mem.mpr (NumberSet.mem_ofList_iff.mpr hmem)]
  have hroots : a.roots.map Root.tree = (a.value.negated 0).map Occurrence.tree ++ [a.branch] := by
    simp [roots, Occurrence.root]
  unfold Listing.outline
  rw [hts, ← hroots, ← hlabels]
  simp only [bind, Except.bind, hall, pure, Except.pure]

/-- The listing of a statement has the tree of the statement. -/
theorem ofListings_listing (a : Assignment) :
    ∃ tree, Tree.ofListings [a.listing] = .ok tree ∧ tree.map Node.label = a.tree := by
  have hlabels := map_label_ofListings [a.listing]
  rw [List.mapM_cons, outline_listing] at hlabels
  cases hr : Tree.ofListings [a.listing] with
  | error defect =>
    rw [hr] at hlabels
    cases hlabels
  | ok tree =>
    rw [hr] at hlabels
    refine ⟨tree, rfl, (Except.ok.inj hlabels).trans ?_⟩
    simp [Assignment.tree]

-- The difference in `p := (a + b) * - (c - d)` stands at the top on its own.
example : tree ⟨.name "p", .operation .multiply
      (.operation .add (.term (.name "a")) (.term (.name "b")))
      (.negation (.operation .subtract (.term (.name "c")) (.term (.name "d"))))⟩ =
    .node "Triad" (.node "2: - (c d)" (.leaf "c") (.leaf "d"))
      (.node "4: := (p ^3)" (.leaf "p")
        (.node "3: * (^1 - ^2)" (.node "1: + (a b)" (.leaf "a") (.leaf "b")) (.leaf "- ^2"))) := by
  decide +kernel

end Assignment

/-- The tree of a statement that is read has the shape and the labels of its expression. -/
theorem parse_reconstructs_expression {source : String} {l : Listing} (h : parse source = .ok l) :
    ∃ a : Assignment, Denotes source a ∧ (∀ b, Denotes source b → b = a) ∧
      (∃ tree, Tree.ofListings [l] = .ok tree ∧ tree.map Node.label = a.tree) ∧
      ((a.value.negated 0).map Occurrence.number).Pairwise (· < ·) := by
  obtain ⟨a, hdenotes, hunique, rfl⟩ := exists_assignment_of_parse h
  exact ⟨a, hdenotes, hunique, a.ofListings_listing, a.value.pairwise_number_negated 0⟩

/-- A change of sign over a difference, so that two trees are joined. -/
theorem parse_reconstructs_expression_signed :
    ∃ l, parse "p:=(a+b)*-(c-d);" = .ok l ∧
      ∃ a : Assignment, Denotes "p:=(a+b)*-(c-d);" a ∧
        (∀ b, Denotes "p:=(a+b)*-(c-d);" b → b = a) ∧
        (∃ tree, Tree.ofListings [l] = .ok tree ∧ tree.map Node.label = a.tree) ∧
        ((a.value.negated 0).map Occurrence.number).Pairwise (· < ·) := by
  let l : Listing := ⟨#[
    ⟨1, .add, .identifier "a", .identifier "b", some 1⟩,
    ⟨2, .subtract, .identifier "c", .identifier "d", some 2⟩,
    ⟨3, .multiply, .temporary 1, .negated (.temporary 2), some 3⟩,
    ⟨4, .assign, .identifier "p", .temporary 3, none⟩]⟩
  have h : parse "p:=(a+b)*-(c-d);" = .ok l := by decide +kernel
  exact ⟨l, h, parse_reconstructs_expression h⟩

end ThreeAddress
