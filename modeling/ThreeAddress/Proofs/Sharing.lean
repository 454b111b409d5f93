import ThreeAddress.Proofs.Defects
import ThreeAddress.Proofs.LeafCache
import ThreeAddress.Proofs.Merging
import ThreeAddress.Tree.Identity

/-!
# Which nodes of a tree are the same

One operand may stand at many places of a tree, and all of them are one node. Nothing else is
shared: operands of different slots are different nodes even if their texts agree, and so are the
operands of a listing that is given twice, and every branch is a node of its own.

To say so, the recursion is run once more with `Mark`s in place of labels. A mark tells the listing
by its place among the listings given, the triad by its place, and the side. The tree built from the
listings has the shape of the tree of marks, and two leaves of it are the same node exactly when
their marks are equal. The marks of leaves, each once and in the order of a walk, are then what the
list of leaves stands for.

Every listing starts from an empty cache, with stamps after all that were given out. `Shares` is
what is known of leaves and branches whose stamps lie in an interval; it is proved for the trees of
a listing from what the cache keeps, and put together for listings that follow each other.
-/
namespace ThreeAddress

open Expansion
open scoped List

/-! ## Marks -/

/-- What a node in the tree of several listings stands for. Listings are counted from zero in the
order in which they are given, and triads go by their place. -/
inductive Mark where
  | operand (listing place : Nat) (side : Side)
  | triad (listing place : Nat)
  | joint
  deriving DecidableEq

/-- The label of a node with the mark. -/
def Mark.label? (listings : List Listing) : Mark → Option String
  | operand listing place side => do
      let l ← listings[listing]?
      let t ← l.triads[place]?
      return (t.operand side).text
  | triad listing place => do
      let l ← listings[listing]?
      let t ← l.triads[place]?
      return t.label
  | joint => some jointLabel

namespace Expansion

variable {l : Listing}

def Origin.mark (listing : Nat) : Origin l → Mark
  | operand place side => .operand listing place side
  | triad place => .triad listing place

theorem Origin.label?_mark {listings : List Listing} {listing : Nat}
    (h : listings[listing]? = some l) (o : Origin l) :
    (o.mark listing).label? listings = some o.label := by
  cases o <;> simp [mark, Mark.label?, h, label, Listing.triadAt]

end Expansion

/-- The trees at the top of listings by plain recursion, with marks. Listings are counted from
`listing` on. -/
def marksFrom (listing : Nat) : List Listing → Except Defect (List (Tree Mark))
  | [] => return []
  | l :: rest => do
      let trees ← l.topLevel.mapM (Expansion.unfold l [])
      let others ← marksFrom (listing + 1) rest
      return trees.map (Tree.map (Origin.mark listing)) ++ others

/-- The tree of listings by plain recursion, with marks. -/
def markedTree (listings : List Listing) : Except Defect (Tree Mark) :=
  (marksFrom 0 listings).map (Tree.combWith (fun _ => .joint) 0)

/-! ## Leaves that are reached -/

/-- A whole tree has every operand that is not expanded of every triad in it. -/
theorem Expansion.Expands.operand_mem_values {l : Listing} {o : Origin l} {t : Tree (Origin l)}
    (h : Expands l o t) {place : Fin l.triads.size} {side : Side}
    (hplace : .triad place ∈ t.values) (hnone : ((l.triadAt place).operand side).target? = none) :
    .operand place side ∈ t.values := by
  induction h with
  | leaf => simp [Tree.leaf, Tree.values] at hplace
  | producer _ _ _ ih => exact ih hplace
  | @triad root left right hleft hright ihl ihr =>
    -- An operand that is not expanded is its own tree.
    have hself : ∀ {s : Tree (Origin l)}, Expands l (.operand place side) s →
        .operand place side ∈ s.values := by
      intro s hs
      cases hs with
      | leaf => exact List.mem_cons_self
      | producer htarget => cases hnone.symm.trans htarget
    simp only [Tree.values, List.mem_cons, List.mem_append] at hplace ⊢
    rcases hplace with hroot | hplace | hplace
    · cases hroot
      cases side with
      | left => exact .inr (.inl (hself hleft))
      | right => exact .inr (.inr (hself hright))
    · exact .inr (.inl (ihl hplace))
    · exact .inr (.inr (ihr hplace))

theorem Expansion.Expands.target?_of_operand_mem {l : Listing} {o : Origin l}
    {t : Tree (Origin l)} (h : Expands l o t) {place : Fin l.triads.size} {side : Side}
    (hmem : .operand place side ∈ t.values) :
    ((l.triadAt place).operand side).target? = none := by
  induction h with
  | leaf hnone =>
    simp only [Tree.leaf, Tree.values, List.append_nil, List.mem_singleton,
      Origin.operand.injEq] at hmem
    rw [hmem.1, hmem.2]
    exact hnone
  | producer _ _ _ ih => exact ih hmem
  | triad _ _ ihl ihr =>
    simp only [Tree.values, List.mem_cons, List.mem_append, reduceCtorEq, false_or] at hmem
    rcases hmem with hmem | hmem
    · exact ihl hmem
    · exact ihr hmem

/-- An operand is a leaf of some tree: its triad is reached, and it is not expanded. -/
def Listing.IsLeaf (l : Listing) (place : Fin l.triads.size) (side : Side) : Prop :=
  l.Reached place ∧ ((l.triadAt place).operand side).target? = none

/-- The leaves of the trees at the top of a listing. -/
theorem Listing.mem_leafValues_iff {l : Listing} {ts : List (Tree (Origin l))}
    (hts : List.Forall₂ (fun place t => Expansion.unfold l [] place = .ok t) l.topLevel ts)
    {o : Origin l} : o ∈ ts.flatMap Tree.leafValues ↔
      ∃ place side, o = .operand place side ∧ l.IsLeaf place side := by
  have hleaves : ∀ {t}, t ∈ ts → (o ∈ t.leafValues ↔ o ∈ t.values ∧ o.isTriad = false) := by
    intro t ht
    obtain ⟨root, -, hroot⟩ := exists_of_mem_of_forall₂ hts ht
    rw [(expands_of_unfold hroot).branches_and_leaves.2.2, List.mem_filter, Bool.not_eq_true']
  rw [List.mem_flatMap]
  constructor
  · rintro ⟨t, ht, ho⟩
    obtain ⟨root, hroot, hunfold⟩ := exists_of_mem_of_forall₂ hts ht
    obtain ⟨hmem, hoperand⟩ := (hleaves ht).mp ho
    have hexpands := expands_of_unfold hunfold
    cases o with
    | triad => cases hoperand
    | operand place side =>
      exact ⟨place, side, rfl, ⟨root, hroot, hexpands.enters_place hmem⟩,
        hexpands.target?_of_operand_mem hmem⟩
  · rintro ⟨place, side, rfl, hreached, hnone⟩
    obtain ⟨t, ht, hplace⟩ := List.mem_flatMap.mp ((triad_mem_values_iff_reached hts).mpr hreached)
    obtain ⟨root, -, hunfold⟩ := exists_of_mem_of_forall₂ hts ht
    have hmem := (expands_of_unfold hunfold).operand_mem_values hplace hnone
    exact ⟨t, ht, (hleaves ht).mpr ⟨hmem, rfl⟩⟩

theorem Listing.mem_marks_iff {l : Listing} {ts : List (Tree (Origin l))}
    (hts : List.Forall₂ (fun place t => Expansion.unfold l [] place = .ok t) l.topLevel ts)
    {listing : Nat} {mark : Mark} :
    mark ∈ (ts.map (Tree.map (Origin.mark listing))).flatMap Tree.leafValues ↔
      ∃ (place : Fin l.triads.size) (side : Side),
        mark = .operand listing place side ∧ l.IsLeaf place side := by
  simp only [List.flatMap_map, Tree.leafValues_map, ← List.map_flatMap, List.mem_map,
    l.mem_leafValues_iff hts]
  constructor
  · rintro ⟨_, ⟨place, side, rfl, hleaf⟩, rfl⟩
    exact ⟨place, side, rfl, hleaf⟩
  · rintro ⟨place, side, rfl, hleaf⟩
    exact ⟨_, ⟨place, side, rfl, hleaf⟩, rfl⟩

theorem mem_marksFrom_iff {listing : Nat} {listings : List Listing} {marks : List (Tree Mark)}
    (h : marksFrom listing listings = .ok marks) {mark : Mark} :
    mark ∈ marks.flatMap Tree.leafValues ↔
      ∃ (k : Nat) (l : Listing) (place : Fin l.triads.size) (side : Side),
        listings[k]? = some l ∧ mark = .operand (listing + k) place side ∧ l.IsLeaf place side := by
  induction listings generalizing listing marks with
  | nil =>
    cases h
    simp
  | cons l rest ih =>
    obtain ⟨ts, hts, h⟩ := except_bind_eq_ok_iff.mp h
    obtain ⟨others, hothers, h⟩ := except_bind_eq_ok_iff.mp h
    cases h
    rw [List.flatMap_append, List.mem_append, l.mem_marks_iff (mapM_eq_ok_iff.mp hts), ih hothers]
    constructor
    · rintro (⟨place, side, rfl, hleaf⟩ | ⟨k, m, place, side, hk, rfl, hleaf⟩)
      · exact ⟨0, l, place, side, rfl, rfl, hleaf⟩
      · exact ⟨k + 1, m, place, side, hk, by rw [Nat.add_right_comm, Nat.add_assoc], hleaf⟩
    · rintro ⟨k, m, place, side, hk, rfl, hleaf⟩
      cases k with
      | zero =>
        cases hk
        exact .inl ⟨place, side, rfl, hleaf⟩
      | succ k =>
        exact .inr ⟨k, m, place, side, hk, by rw [Nat.add_right_comm, Nat.add_assoc], hleaf⟩

/-! ## Leaves and branches in an interval of stamps -/

/-- What is known of leaves with their marks and of the stamps of branches, when all stamps are from
`low` on and below `high`. -/
structure Shares (low high : Nat) (marks : List Mark) (leaves : List Node) (branches : List Nat) :
    Prop where
  le : low ≤ high
  length_eq : marks.length = leaves.length
  same_iff : ∀ p ∈ marks.zip leaves, ∀ q ∈ marks.zip leaves, p.2.stamp = q.2.stamp ↔ p.1 = q.1
  leaf_range : ∀ leaf ∈ leaves, low ≤ leaf.stamp ∧ leaf.stamp < high
  nodup : branches.Nodup
  branch_range : ∀ stamp ∈ branches, low ≤ stamp ∧ stamp < high
  apart : ∀ leaf ∈ leaves, leaf.stamp ∉ branches

namespace Shares

variable {low mid high : Nat} {marks marks' : List Mark} {leaves leaves' : List Node}
  {branches branches' : List Nat}

theorem nil (n : Nat) : Shares n n [] [] [] := by
  constructor <;> simp

theorem shift (h : Shares low high marks leaves branches) (n : Nat) :
    Shares (low + n) (high + n) marks (leaves.map (Node.shift n)) (branches.map (· + n)) where
  le := Nat.add_le_add_right h.le n
  length_eq := by rw [List.length_map, h.length_eq]
  same_iff := by
    rw [List.zip_map_right]
    simp only [List.forall_mem_map]
    intro p hp q hq
    show p.2.stamp + n = q.2.stamp + n ↔ p.1 = q.1
    rw [Nat.add_right_cancel_iff]
    exact h.same_iff p hp q hq
  leaf_range := by
    simp only [List.forall_mem_map, Node.shift]
    intro leaf hleaf
    have := h.leaf_range leaf hleaf
    omega
  nodup := h.nodup.map fun _ _ => Nat.add_right_cancel
  branch_range := by
    simp only [List.forall_mem_map]
    intro stamp hstamp
    have := h.branch_range stamp hstamp
    omega
  apart := by
    intro shifted hshifted hmem
    obtain ⟨leaf, hleaf, rfl⟩ := List.mem_map.mp hshifted
    obtain ⟨stamp, hstamp, hsame⟩ := List.mem_map.mp hmem
    have hstamps : stamp = leaf.stamp := Nat.add_right_cancel hsame
    exact h.apart leaf hleaf (hstamps ▸ hstamp)

/-- Nodes that are made one after the other for different things. -/
theorem append (h : Shares low mid marks leaves branches)
    (h' : Shares mid high marks' leaves' branches') (hmarks : ∀ mark ∈ marks, mark ∉ marks') :
    Shares low high (marks ++ marks') (leaves ++ leaves') (branches ++ branches') := by
  have hle := h.le
  have hle' := h'.le
  -- Across the two parts neither stamps nor marks agree.
  have hacross : ∀ p ∈ marks.zip leaves, ∀ q ∈ marks'.zip leaves',
      p.2.stamp < q.2.stamp ∧ p.1 ≠ q.1 := by
    intro p hp q hq
    obtain ⟨hpmark, hpleaf⟩ := List.of_mem_zip hp
    obtain ⟨hqmark, hqleaf⟩ := List.of_mem_zip hq
    have hfirst := h.leaf_range _ hpleaf
    have hsecond := h'.leaf_range _ hqleaf
    refine ⟨by omega, fun hsame => hmarks _ hpmark ?_⟩
    rw [hsame]
    exact hqmark
  refine ⟨hle.trans hle', ?_, ?_, ?_, ?_, ?_, ?_⟩
  · rw [List.length_append, List.length_append, h.length_eq, h'.length_eq]
  · rw [List.zip_append h.length_eq]
    intro p hp q hq
    rcases List.mem_append.mp hp with hp | hp <;> rcases List.mem_append.mp hq with hq | hq
    · exact h.same_iff p hp q hq
    · have hdiffer := hacross p hp q hq
      exact iff_of_false (by omega) hdiffer.2
    · have hdiffer := hacross q hq p hp
      exact iff_of_false (by omega) hdiffer.2.symm
    · exact h'.same_iff p hp q hq
  · intro leaf hleaf
    rcases List.mem_append.mp hleaf with hleaf | hleaf
    · have := h.leaf_range leaf hleaf
      omega
    · have := h'.leaf_range leaf hleaf
      omega
  · refine h.nodup.append h'.nodup fun stamp hfirst hsecond => ?_
    have := h.branch_range stamp hfirst
    have := h'.branch_range stamp hsecond
    omega
  · intro stamp hstamp
    rcases List.mem_append.mp hstamp with hstamp | hstamp
    · have := h.branch_range stamp hstamp
      omega
    · have := h'.branch_range stamp hstamp
      omega
  · intro leaf hleaf hstamp
    rcases List.mem_append.mp hleaf with hleaf | hleaf <;>
      rcases List.mem_append.mp hstamp with hstamp | hstamp
    · exact h.apart leaf hleaf hstamp
    · have := h.leaf_range leaf hleaf
      have := h'.branch_range _ hstamp
      omega
    · have := h'.leaf_range leaf hleaf
      have := h.branch_range _ hstamp
      omega
    · exact h'.apart leaf hleaf hstamp

/-- Joints take the stamps that come next. -/
theorem joints (h : Shares low high marks leaves branches) (n : Nat) :
    Shares low (high + n) marks leaves (branches ++ List.range' high n) := by
  have hjoints : Shares high (high + n) [] [] (List.range' high n) := by
    refine ⟨Nat.le_add_right .., rfl, by simp, by simp, List.nodup_range', ?_, by simp⟩
    intro stamp hstamp
    exact List.mem_range'_1.mp hstamp
  simpa using h.append hjoints (by simp)

theorem perm (h : Shares low high marks leaves branches) (hperm : branches ~ branches') :
    Shares low high marks leaves branches' where
  le := h.le
  length_eq := h.length_eq
  same_iff := h.same_iff
  leaf_range := h.leaf_range
  nodup := hperm.nodup_iff.mp h.nodup
  branch_range := fun stamp hstamp => h.branch_range stamp (hperm.mem_iff.mpr hstamp)
  apart := fun leaf hleaf hstamp => h.apart leaf hleaf (hperm.mem_iff.mpr hstamp)

/-- The leaves that a listing keeps have the stamps of their slots. -/
theorem of_keeps {l : Listing} {b : Builder} {origins : List (Origin l)}
    (h : Keeps {} origins leaves branches b) (listing : Nat) :
    Shares 0 b.stamps (origins.map (Origin.mark listing)) leaves branches := by
  obtain ⟨hlength, hkept⟩ := List.forall₂_iff_zip.mp h.leaves
  refine ⟨Nat.zero_le _, by rw [List.length_map, hlength], ?_, ?_, h.nodup, h.range, ?_⟩
  · rw [List.zip_map_left]
    simp only [List.forall_mem_map]
    rintro ⟨o, leaf⟩ hp ⟨o', leaf'⟩ hq
    obtain ⟨place, side, rfl, hleaf⟩ := hkept hp
    obtain ⟨place', side', rfl, hleaf'⟩ := hkept hq
    constructor
    · intro hsame
      obtain ⟨rfl, rfl⟩ := slot_inj (h.separates.inj hleaf hleaf' hsame)
      rfl
    · intro hsame
      simp only [Prod.map_apply, Origin.mark, Mark.operand.injEq, true_and] at hsame
      rw [Fin.ext hsame.1, hsame.2, hleaf'] at hleaf
      rw [Option.some.inj hleaf]
      rfl
  · intro leaf hmem
    obtain ⟨o, -, place, side, -, hleaf⟩ := exists_of_mem_of_forall₂ h.leaves hmem
    exact ⟨Nat.zero_le _, h.separates.below hleaf⟩
  · intro leaf hmem
    obtain ⟨o, -, place, side, -, hleaf⟩ := exists_of_mem_of_forall₂ h.leaves hmem
    exact h.apart hleaf

end Shares

/-! ## Trees of listings and their marks -/

/-- Trees made from listings, the trees of their marks, and the stamps that were given out. -/
structure MarkedAs (listings : List Listing) (low high : Nat) (marks : List (Tree Mark))
    (trees : List (Tree Node)) : Prop where
  isEmpty : ∀ t ∈ trees, t.isEmpty = false
  labels : marks.map (Tree.map (Mark.label? listings)) =
    (trees.map (Tree.map Node.label)).map (Tree.map some)
  shares : Shares low high (marks.flatMap Tree.leafValues) (trees.flatMap Tree.leafValues)
    ((trees.flatMap Tree.branchValues).map Node.stamp)

namespace MarkedAs

variable {listings : List Listing} {low mid high : Nat} {marks marks' : List (Tree Mark)}
  {trees trees' : List (Tree Node)}

theorem nil (n : Nat) : MarkedAs listings n n [] [] := ⟨by simp, rfl, .nil n⟩

theorem append (h : MarkedAs listings low mid marks trees)
    (h' : MarkedAs listings mid high marks' trees')
    (hmarks : ∀ mark ∈ marks.flatMap Tree.leafValues, mark ∉ marks'.flatMap Tree.leafValues) :
    MarkedAs listings low high (marks ++ marks') (trees ++ trees') where
  isEmpty := List.forall_mem_append.mpr ⟨h.isEmpty, h'.isEmpty⟩
  labels := by simp only [List.map_append, h.labels, h'.labels]
  shares := by
    simp only [List.flatMap_append, List.map_append]
    exact h.shares.append h'.shares hmarks

theorem shift (h : MarkedAs listings low high marks trees) (n : Nat) :
    MarkedAs listings (low + n) (high + n) marks (trees.map (Tree.map (Node.shift n))) where
  isEmpty := by simpa using h.isEmpty
  labels := by simp [h.labels]
  shares := by
    have hleaves : (trees.map (Tree.map (Node.shift n))).flatMap Tree.leafValues =
        (trees.flatMap Tree.leafValues).map (Node.shift n) := by
      simp only [List.flatMap_map, Tree.leafValues_map, List.map_flatMap]
    have hbranches : ((trees.map (Tree.map (Node.shift n))).flatMap Tree.branchValues).map
        Node.stamp = ((trees.flatMap Tree.branchValues).map Node.stamp).map (· + n) := by
      simp only [List.flatMap_map, Tree.branchValues_map, List.map_flatMap, List.map_map]
      rfl
    rw [hleaves, hbranches]
    exact h.shares.shift n

/-- The trees at the top of a listing that is built from nothing. -/
theorem of_makesAll {l : Listing} {ts : List (Tree (Origin l))} {b : Builder}
    (h : MakesAll l {} ts trees b) {listing : Nat} (hl : listings[listing]? = some l) :
    MarkedAs listings 0 b.stamps (ts.map (Tree.map (Origin.mark listing))) trees where
  isEmpty := h.isEmpty
  labels := by
    rw [(h.built (labelled_empty rfl)).labels]
    simp [Function.comp_def, Tree.map_map, Origin.label?_mark hl]
  shares := by
    have hshares := Shares.of_keeps (h.keeps (Builder.separates_of_empty rfl)) listing
    simpa only [List.flatMap_map, Tree.leafValues_map, List.map_flatMap] using hshares

end MarkedAs

theorem outcome_eq_ok_iff {r : EStateM.Result Defect Builder α} {a : α} {b : Builder} :
    outcome r = .ok (a, b) ↔ r = .ok a b := by
  cases r <;> simp [outcome]

/-- The trees that a listing yields alone are made for those of the recursion. -/
theorem Listing.exists_makesAll_of_ownTrees {l : Listing} {own : OwnTrees}
    (h : l.ownTrees = .ok own) : ∃ ts b, l.topLevel.mapM (Expansion.unfold l []) = .ok ts ∧
      MakesAll l {} ts own.trees b ∧ b.stamps = own.made := by
  rw [ownTrees, forest_apply, outcome_bind] at h
  obtain ⟨⟨trees, b⟩, hforest, rfl⟩ := except_map_eq_ok_iff.mp h
  obtain ⟨⟨expanded, b'⟩, hexpanded, hmissed⟩ := except_bind_eq_ok_iff.mp hforest
  have hsame : expanded = trees ∧ b' = b := by
    rw [unlessMissed_apply] at hmissed
    cases hunvisited : l.unvisited? b'.visited with
    | some t =>
      simp only [hunvisited] at hmissed
      cases hmissed
    | none =>
      simp only [hunvisited] at hmissed
      cases hmissed
      exact ⟨rfl, rfl⟩
  obtain ⟨rfl, rfl⟩ := hsame
  obtain ⟨ts, hts, hmakes⟩ :=
    (mapM_expand_makes l.topLevel _).exists_of_ok (outcome_eq_ok_iff.mp hexpanded)
  exact ⟨ts, b', hts, hmakes, rfl⟩

/-- What listings yield, one after the other, is marked as the recursion says. -/
theorem exists_marks {all listings : List Listing} {owns : List OwnTrees}
    (h : List.Forall₂ (fun l own => l.ownTrees = .ok own) listings owns) {listing : Nat}
    (hall : ∀ k, all[listing + k]? = listings[k]?) (n : Nat) :
    ∃ marks, marksFrom listing listings = .ok marks ∧
      MarkedAs all n (madeAfter n owns) marks (placed n owns) := by
  induction h generalizing listing n with
  | nil => exact ⟨[], rfl, .nil n⟩
  | @cons l own rest owns hown _ ih =>
    obtain ⟨ts, b, hts, hmakes, hmade⟩ := Listing.exists_makesAll_of_ownTrees hown
    have hrest : ∀ k, all[listing + 1 + k]? = rest[k]? := by
      intro k
      rw [Nat.add_right_comm, Nat.add_assoc, hall, List.getElem?_cons_succ]
    obtain ⟨others, hothers, hmarked⟩ := ih hrest (n + own.made)
    have hfirst := (MarkedAs.of_makesAll hmakes (hall 0)).shift n
    rw [Nat.zero_add, hmade, Nat.add_comm own.made] at hfirst
    refine ⟨_, ?_, hfirst.append hmarked ?_⟩
    · rw [marksFrom, hts, hothers]
      rfl
    · -- The marks of the others name later listings.
      intro mark hmark hother
      obtain ⟨place, side, rfl, -⟩ := (l.mem_marks_iff (mapM_eq_ok_iff.mp hts)).mp hmark
      obtain ⟨k, _, _, _, -, hsame, -⟩ := (mem_marksFrom_iff hothers).mp hother
      have hlisting := (Mark.operand.inj hsame).1
      omega

/-! ## The list of leaves -/

/-- When stamps agree exactly where marks do, the nodes without repetition are those of the marks
without repetition. -/
theorem forall₂_distinctNodes {pairs : List (Mark × Node)}
    (h : ∀ p ∈ pairs, ∀ q ∈ pairs, p.2.stamp = q.2.stamp ↔ p.1 = q.1) (seen : NumberSet) :
    List.Forall₂ (fun mark node => (mark, node) ∈ pairs)
      ((pairs.filter fun p => p.2.stamp ∉ seen).map Prod.fst).eraseDups
      (distinctNodes seen (pairs.map Prod.snd)) := by
  induction pairs generalizing seen with
  | nil => exact .nil
  | cons p pairs ih =>
    have hpairs := ih fun q hq r hr =>
      h q (List.mem_cons_of_mem _ hq) r (List.mem_cons_of_mem _ hr)
    rw [List.map_cons, distinctNodes]
    by_cases hseen : p.2.stamp ∈ seen
    · rw [if_pos (NumberSet.contains_iff_mem.mpr hseen),
        List.filter_cons_of_neg (by simpa using hseen)]
      exact (hpairs seen).imp fun _ _ => List.mem_cons_of_mem _
    · rw [if_neg (fun hcontains => hseen (NumberSet.contains_iff_mem.mp hcontains)),
        List.filter_cons_of_pos (by simpa using hseen), List.map_cons, List.eraseDups_cons]
      -- The marks that are dropped are those whose nodes are seen from now on.
      have hlater : ((pairs.filter fun q => q.2.stamp ∉ seen).map Prod.fst).filter
          (fun mark => !mark == p.1) =
          (pairs.filter fun q => q.2.stamp ∉ seen.insert p.2.stamp).map Prod.fst := by
        rw [List.filter_map, List.filter_filter]
        congr 1
        apply List.filter_congr
        intro q hq
        have hsame := h q (List.mem_cons_of_mem _ hq) p List.mem_cons_self
        rw [Bool.eq_iff_iff]
        simp only [Function.comp_apply, Bool.and_eq_true, Bool.not_eq_true', beq_eq_false_iff_ne,
          ne_eq, decide_eq_true_eq, NumberSet.mem_insert_iff, not_or, hsame]
      rw [hlater]
      exact .cons List.mem_cons_self ((hpairs _).imp fun _ _ => List.mem_cons_of_mem _)

/-- A walk meets the values of leaves in order. -/
theorem Tree.filterMap_leaves_subtrees {α : Type} (t : Tree α) :
    (t.subtrees.filter isLeaf).filterMap value? = t.leafValues := by
  induction t with
  | empty => rfl
  | node value left right ihl ihr =>
    have hbelow : ((left.subtrees ++ right.subtrees).filter isLeaf).filterMap value? =
        left.leafValues ++ right.leafValues := by
      rw [List.filter_append, List.filterMap_append, ihl, ihr]
    have hroot : (node value left right).isLeaf = (left.isEmpty && right.isEmpty) := rfl
    by_cases hleaf : (left.isEmpty && right.isEmpty) = true
    · have hnone : left.leafValues ++ right.leafValues = [] := by
        cases left <;> cases right <;> simp_all [isEmpty, leafValues]
      rw [subtrees, List.filter_cons_of_pos (hroot ▸ hleaf), List.filterMap_cons, hbelow, hnone,
        leafValues, if_pos hleaf]
      rfl
    · rw [subtrees, List.filter_cons_of_neg (hroot ▸ hleaf), hbelow, leafValues, if_neg hleaf]

theorem Tree.leaves_eq (t : Tree Node) : t.leaves = distinctNodes ∅ t.leafValues := by
  rw [leaves, toList_preorder, filterMap_leaves_subtrees]

/-- The list of leaves has the leaf of every mark once, where the mark is met first. -/
theorem Shares.forall₂_leaves {low high : Nat} {marks : List Mark} {tree : Tree Node}
    {branches : List Nat} (h : Shares low high marks tree.leafValues branches) :
    List.Forall₂ (fun mark leaf => (mark, leaf) ∈ marks.zip tree.leafValues) marks.eraseDups
      tree.leaves := by
  have hdistinct := forall₂_distinctNodes h.same_iff ∅
  simp only [Std.TreeSet.not_mem_emptyc, not_false_eq_true, decide_true,
    List.filter_true] at hdistinct
  rwa [List.map_fst_zip h.length_eq.le, List.map_snd_zip h.length_eq.ge,
    ← Tree.leaves_eq] at hdistinct

/-! ## The tree of all listings -/

/-- Joints are new nodes, so joining keeps what is known of leaves and branches. -/
theorem MarkedAs.shares_combFrom {listings : List Listing} {low high : Nat}
    {marks : List (Tree Mark)} {trees : List (Tree Node)}
    (h : MarkedAs listings low high marks trees) :
    Shares low (high + (trees.length - 1)) (marks.flatMap Tree.leafValues)
      (combFrom high trees).leafValues ((combFrom high trees).branchValues.map Node.stamp) := by
  have hbranches := (Tree.branchValues_combWith (fun k => (⟨k, jointLabel⟩ : Node)) high
    h.isEmpty).map Node.stamp
  have hstamps : ((List.range' high (trees.length - 1)).map fun k => (⟨k, jointLabel⟩ : Node)).map
      Node.stamp = List.range' high (trees.length - 1) := by
    rw [List.map_map]
    exact List.map_id _
  rw [List.map_append, hstamps] at hbranches
  rw [combFrom, Tree.leafValues_combWith _ _ h.isEmpty]
  exact (h.shares.joints _).perm (List.perm_append_comm.trans hbranches.symm)

theorem MarkedAs.labels_combFrom {listings : List Listing} {low high : Nat}
    {marks : List (Tree Mark)} {trees : List (Tree Node)}
    (h : MarkedAs listings low high marks trees) (n : Nat) :
    (Tree.combWith (fun _ => .joint) 0 marks).map (Mark.label? listings) =
      ((combFrom n trees).map Node.label).map some := by
  rw [Tree.map_combWith, h.labels, map_label_combFrom, comb, Tree.map_combWith]
  rfl

theorem MarkedAs.isEmpty_marks {listings : List Listing} {low high : Nat}
    {marks : List (Tree Mark)} {trees : List (Tree Node)}
    (h : MarkedAs listings low high marks trees) : ∀ t ∈ marks, t.isEmpty = false := by
  intro t ht
  have hlabelled := List.mem_map_of_mem (f := Tree.map (Mark.label? listings)) ht
  rw [h.labels, List.map_map] at hlabelled
  obtain ⟨tree, htree, hsame⟩ := List.mem_map.mp hlabelled
  rw [← Tree.isEmpty_map (Mark.label? listings), ← hsame]
  simpa using h.isEmpty tree htree

/-- The mark stands for an operand that is a leaf. -/
def Mark.IsReached (listings : List Listing) (mark : Mark) : Prop :=
  ∃ (k : Nat) (l : Listing) (place : Fin l.triads.size) (side : Side),
    listings[k]? = some l ∧ mark = .operand k place side ∧ l.IsLeaf place side

/-- Which nodes of the tree of listings are the same, by the tree of marks. -/
structure SharedBySlot (listings : List Listing) (tree : Tree Node) (marks : Tree Mark) :
    Prop where
  /-- The tree has the shape of its marks, and every node has the label of its mark. -/
  labels : marks.map (Mark.label? listings) = (tree.map Node.label).map some
  /-- Two leaves are one node exactly when they stand for the same operand. -/
  same_iff : ∀ p ∈ marks.leafValues.zip tree.leafValues,
    ∀ q ∈ marks.leafValues.zip tree.leafValues, p.2.stamp = q.2.stamp ↔ p.1 = q.1
  /-- No branch occurs a second time, neither as a branch nor as a leaf. -/
  branch_once : (tree.branchValues.map Node.stamp).Nodup ∧
    ∀ leaf ∈ tree.leafValues, leaf.stamp ∉ tree.branchValues.map Node.stamp
  /-- Leaves stand for the operands that are reached and not expanded. -/
  mem_iff : ∀ mark, mark ∈ marks.leafValues ↔ mark.IsReached listings
  /-- The list of leaves has one entry for each of these operands, in the order in which a walk
  meets them first: the leaf of the operand, with its text. -/
  leaves : List.Forall₂ (fun mark leaf => (mark, leaf) ∈ marks.leafValues.zip tree.leafValues ∧
    mark.label? listings = some leaf.label) marks.leafValues.eraseDups tree.leaves

/-- Leaves of the tree that is built from listings are shared by the slots of their operands, and
nothing else is shared. -/
theorem leaves_shared_by_slot {listings : List Listing} {tree : Tree Node}
    (h : Tree.ofListings listings = .ok tree) :
    ∃ marks, markedTree listings = .ok marks ∧ SharedBySlot listings tree marks := by
  rw [ofListings_eq] at h
  obtain ⟨owns, howns, rfl⟩ := except_map_eq_ok_iff.mp h
  have hcounted : ∀ k, listings[0 + k]? = listings[k]? := by simp
  obtain ⟨marks, hmarks, hmarked⟩ := exists_marks (mapM_eq_ok_iff.mp howns) hcounted 0
  have hleaves := Tree.leafValues_combWith (fun _ => Mark.joint) 0 hmarked.isEmpty_marks
  have hshares := hmarked.shares_combFrom
  rw [← hleaves] at hshares
  have hlabels := hmarked.labels_combFrom (madeAfter 0 owns)
  have hlabelled : List.Forall₂ (fun mark leaf => mark.label? listings = some leaf.label)
      (Tree.combWith (fun _ => Mark.joint) 0 marks).leafValues (merged owns).leafValues := by
    have hvalues := congrArg Tree.leafValues hlabels
    rw [Tree.leafValues_map, Tree.leafValues_map, Tree.leafValues_map, List.map_map,
      ← List.forall₂_eq_eq_eq, List.forall₂_map_left_iff, List.forall₂_map_right_iff] at hvalues
    exact hvalues
  have htree : markedTree listings = .ok (Tree.combWith (fun _ => .joint) 0 marks) := by
    rw [markedTree, hmarks]
    rfl
  refine ⟨_, htree, hlabels, hshares.same_iff, ⟨hshares.nodup, hshares.apart⟩, fun mark => ?_, ?_⟩
  · rw [hleaves, mem_marksFrom_iff hmarks]
    simp only [Nat.zero_add, Mark.IsReached]
  · refine hshares.forall₂_leaves.imp fun mark leaf hmem => ⟨hmem, ?_⟩
    exact (List.forall₂_iff_zip.mp hlabelled).2 hmem

/-- A listing that takes a square twice, given twice: the square has two branches each time, and two
leaves of the same text that occur twice and are kept apart from those of the other listing. -/
theorem leaves_shared_by_slot_square :
    let squares : Listing := ⟨#[
      ⟨1, .multiply, .identifier "c", .identifier "c", some 1⟩,
      ⟨2, .add, .temporary 1, .temporary 1, some 2⟩,
      ⟨3, .assign, .identifier "a", .temporary 2, none⟩]⟩
    let square (n stamp : Nat) : Tree Node :=
      .node ⟨n + stamp, "1: * (c c)"⟩ (.leaf ⟨n + 1, "c"⟩) (.leaf ⟨n + 2, "c"⟩)
    let own (n : Nat) : Tree Node := .node ⟨n + 6, "3: := (a ^2)"⟩ (.leaf ⟨n, "a"⟩)
      (.node ⟨n + 5, "2: + (^1 ^1)"⟩ (square n 3) (square n 4))
    let tree : Tree Node := .node ⟨14, "Triad"⟩ (own 0) (own 7)
    Tree.ofListings [squares, squares] = .ok tree ∧
      tree.leaves = [⟨0, "a"⟩, ⟨1, "c"⟩, ⟨2, "c"⟩, ⟨7, "a"⟩, ⟨8, "c"⟩, ⟨9, "c"⟩] ∧
      ∃ marks, markedTree [squares, squares] = .ok marks ∧
        SharedBySlot [squares, squares] tree marks := by
  intro squares square own tree
  have htree : Tree.ofListings [squares, squares] = .ok tree := by decide +kernel
  exact ⟨htree, by decide +kernel, leaves_shared_by_slot htree⟩

end ThreeAddress
