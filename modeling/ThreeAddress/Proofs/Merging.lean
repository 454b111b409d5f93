import ThreeAddress.Proofs.Acyclicity
import ThreeAddress.Proofs.Stamps

/-!
# Merging listings

Listings are built one after the other and their trees are joined. What a listing contributes is
what it yields on its own: the builder that it finds changes nothing but the stamps of its nodes.
Hence the tree of several listings, or the defect that stops it, can be told from what each of them
yields alone: `ofListings_eq` is an equation between the two, down to the stamps. All trees stand in
one left comb, and the first listing that fails on its own decides the defect.
-/
namespace ThreeAddress

theorem except_bind_eq_error_iff {ε α β : Type} {x : Except ε α} {f : α → Except ε β} {e : ε} :
    (x >>= f) = .error e ↔ x = .error e ∨ ∃ a, x = .ok a ∧ f a = .error e := by
  cases x <;> simp [bind, Except.bind]

theorem except_map_eq_error_iff {ε α β : Type} {x : Except ε α} {f : α → β} {e : ε} :
    x.map f = .error e ↔ x = .error e := by
  cases x <;> simp [Except.map]

/-- A failure comes from the first one that fails. -/
theorem exists_first_of_mapM_eq_error {ε α β : Type} {f : α → Except ε β} {xs : List α} {e : ε}
    (h : xs.mapM f = .error e) : ∃ before x after, xs = before ++ x :: after ∧
      (∀ y ∈ before, ∃ b, f y = .ok b) ∧ f x = .error e := by
  induction xs with
  | nil => cases h
  | cons x xs ih =>
    rw [List.mapM_cons] at h
    obtain hx | ⟨b, hx, h⟩ := except_bind_eq_error_iff.mp h
    · exact ⟨[], x, xs, rfl, by simp, hx⟩
    · obtain hxs | ⟨bs, -, h⟩ := except_bind_eq_error_iff.mp h
      · obtain ⟨before, y, after, rfl, hbefore, hy⟩ := ih hxs
        refine ⟨x :: before, y, after, rfl, ?_, hy⟩
        rw [List.forall_mem_cons]
        exact ⟨⟨b, hx⟩, hbefore⟩
      · cases h

/-! ## What a listing yields on its own -/

/-- The trees at the top of a listing, and how many nodes were made for them. -/
structure OwnTrees where
  trees : List (Tree Node)
  made : Nat

/-- The trees that a listing yields when it is built alone. -/
def Listing.ownTrees (l : Listing) : Except Defect OwnTrees :=
  (outcome (l.forest {})).map fun r => ⟨r.1, r.2.stamps⟩

theorem Yields.map {x : Build α} {b : Builder} {r : Except Defect β} {g : β → γ}
    {R : β → α → Builder → Prop} {S : γ → α → Builder → Prop} (h : Yields x b r R)
    (hS : ∀ v a b', R v a b' → S (g v) a b') : Yields x b (r.map g) S := by
  cases r with
  | error defect => exact h
  | ok v =>
    obtain ⟨a, b', hrun, hR⟩ := h
    exact ⟨a, b', hrun, hS v a b' hR⟩

theorem Listing.forest_ownTrees (l : Listing) (c : Builder) :
    Yields l.forest c l.ownTrees fun own trees c' =>
      trees = own.trees.map (Tree.map (Node.shift c.stamps)) ∧ c'.stamps = c.stamps + own.made := by
  refine (forest_shifted l c).map fun r trees c' hr => ⟨hr.1, ?_⟩
  rw [hr.2, Nat.add_comm]

/-! ## One comb of all trees -/

/-- All trees in turn. Those of a listing have their stamps after all that were given out before. -/
def placed : Nat → List OwnTrees → List (Tree Node)
  | _, [] => []
  | n, own :: rest => own.trees.map (Tree.map (Node.shift n)) ++ placed (n + own.made) rest

/-- How many stamps were given out once all trees are made. -/
def madeAfter (n : Nat) (owns : List OwnTrees) : Nat := owns.foldl (fun n own => n + own.made) n

/-- The tree of several listings, from what each of them yields. -/
def merged (owns : List OwnTrees) : Tree Node := combFrom (madeAfter 0 owns) (placed 0 owns)

theorem Listing.mapM_forest_ownTrees (listings : List Listing) (c : Builder) :
    Yields (listings.mapM forest) c (listings.mapM ownTrees) fun owns forests c' =>
      forests.flatten = placed c.stamps owns ∧ c'.stamps = madeAfter c.stamps owns := by
  induction listings generalizing c with
  | nil => exact .pure ⟨rfl, rfl⟩
  | cons l listings ih =>
    rw [List.mapM_cons, List.mapM_cons]
    refine (l.forest_ownTrees c).bind fun own trees c' hown => ?_
    refine (ih c').bind fun owns forests c'' howns => .pure ⟨?_, ?_⟩
    · rw [List.flatten_cons, hown.1, howns.1, hown.2]
      rfl
    · rw [howns.2, hown.2]
      rfl

/-- The tree of listings, or the defect that stops it, comes from what each of them yields on its
own. -/
theorem ofListings_eq (listings : List Listing) :
    Tree.ofListings listings = (listings.mapM Listing.ownTrees).map merged := by
  have hbuild : Yields (Tree.build listings) {} ((listings.mapM Listing.ownTrees).map merged)
      fun merged tree _ => tree = merged := by
    refine Yields.bind (Listing.mapM_forest_ownTrees listings {}) fun owns forests b hforests => ?_
    obtain ⟨b', hjoin, -⟩ := joinTrees_apply forests.flatten b
    refine ⟨_, b', hjoin, ?_⟩
    rw [hforests.1, hforests.2]
    rfl
  unfold Tree.ofListings Tree.ofListingsTraced EStateM.run
  generalize (listings.mapM Listing.ownTrees).map merged = r at hbuild ⊢
  cases r with
  | error defect =>
    obtain ⟨b, hrun⟩ := hbuild
    rw [hrun]
  | ok t =>
    obtain ⟨tree, b, hrun, rfl⟩ := hbuild
    rw [hrun]

/-- A listing on its own has the comb of the trees that it yields. -/
theorem ofListings_singleton_eq (l : Listing) :
    Tree.ofListings [l] = l.ownTrees.map fun own => combFrom own.made own.trees := by
  rw [ofListings_eq, List.mapM_cons, List.mapM_nil]
  cases l.ownTrees with
  | error defect => rfl
  | ok own =>
    have hplaced : placed 0 [own] = own.trees := by simp [placed]
    have hmade : madeAfter 0 [own] = own.made := by simp [madeAfter]
    show Except.ok (combFrom (madeAfter 0 [own]) (placed 0 [own])) = _
    rw [hplaced, hmade]
    rfl

/-! ## Labels -/

theorem map_label_placed (n : Nat) (owns : List OwnTrees) :
    (placed n owns).map (Tree.map Node.label) =
      (owns.flatMap OwnTrees.trees).map (Tree.map Node.label) := by
  induction owns generalizing n with
  | nil => rfl
  | cons own owns ih =>
    rw [placed, List.map_append, ih, List.flatMap_cons, List.map_append, List.map_map]
    simp [Function.comp_def]

/-! ## Merging -/

/-- The listing on its own has a tree. -/
def Listing.HasTree (l : Listing) : Prop := ∃ tree, Tree.ofListings [l] = .ok tree

theorem Listing.hasTree_iff {l : Listing} : l.HasTree ↔ ∃ own, l.ownTrees = .ok own := by
  simp only [HasTree, ofListings_singleton_eq, except_map_eq_ok_iff]
  constructor
  · rintro ⟨_, own, hown, -⟩
    exact ⟨own, hown⟩
  · rintro ⟨own, hown⟩
    exact ⟨_, own, hown, rfl⟩

/-- What listings that have trees of their own are merged into. -/
structure Merges (listings : List Listing) (owns : List OwnTrees) : Prop where
  /-- Each listing yields its trees alone, and its own tree is the comb of them. -/
  own : List.Forall₂ (fun l own => l.ownTrees = .ok own ∧
    Tree.ofListings [l] = .ok (combFrom own.made own.trees)) listings owns
  /-- All trees are in one comb. Only the stamps are later, all those of a listing by the same. -/
  tree : Tree.ofListings listings = .ok (merged owns)
  labels : (merged owns).map Node.label =
    comb ((owns.flatMap OwnTrees.trees).map (Tree.map Node.label))

/-- The first listing without a tree of its own has the defect. -/
def FirstDefect (listings : List Listing) (defect : Defect) : Prop :=
  ∃ before l after, listings = before ++ l :: after ∧ (∀ k ∈ before, k.HasTree) ∧
    Tree.ofListings [l] = .error defect

theorem merges_of_ownTrees {listings : List Listing} {owns : List OwnTrees}
    (h : List.Forall₂ (fun l own => l.ownTrees = .ok own) listings owns) :
    Merges listings owns where
  own := by
    refine h.imp fun l own hown => ⟨hown, ?_⟩
    rw [ofListings_singleton_eq, hown]
    rfl
  tree := by
    rw [ofListings_eq, mapM_eq_ok_iff.mpr h]
    rfl
  labels := by rw [merged, map_label_combFrom, map_label_placed]

theorem firstDefect_of_mapM_eq_error {listings : List Listing} {defect : Defect}
    (h : listings.mapM Listing.ownTrees = .error defect) : FirstDefect listings defect := by
  obtain ⟨before, l, after, rfl, hbefore, hl⟩ := exists_first_of_mapM_eq_error h
  refine ⟨before, l, after, rfl, fun k hk => ?_, ?_⟩
  · exact Listing.hasTree_iff.mpr (hbefore k hk)
  · rw [ofListings_singleton_eq, hl]
    rfl

/-- Listings that have trees on their own are merged into the left comb of all trees that they
yield, in order. Otherwise the first listing without a tree decides the defect, whatever the others
hold. -/
theorem ofListings_merges (listings : List Listing) :
    ((∀ l ∈ listings, l.HasTree) → ∃ owns, Merges listings owns) ∧
      ((¬∀ l ∈ listings, l.HasTree) →
        ∃ defect, FirstDefect listings defect ∧ Tree.ofListings listings = .error defect) := by
  have hall : (∀ l ∈ listings, l.HasTree) ↔
      ∃ owns, List.Forall₂ (fun l own => l.ownTrees = .ok own) listings owns := by
    simp only [exists_forall₂_iff, Listing.hasTree_iff]
  constructor
  · intro h
    obtain ⟨owns, howns⟩ := hall.mp h
    exact ⟨owns, merges_of_ownTrees howns⟩
  · intro h
    cases hmapM : listings.mapM Listing.ownTrees with
    | ok owns => exact absurd (hall.mpr ⟨owns, mapM_eq_ok_iff.mp hmapM⟩) h
    | error defect =>
      refine ⟨defect, firstDefect_of_mapM_eq_error hmapM, ?_⟩
      rw [ofListings_eq, hmapM]
      rfl

/-- A listing with two trees, given twice with an empty one between, is merged; after it, one with a
cycle fails before one with a temporary that names no triad. -/
theorem ofListings_merges_signed :
    let signed : Listing := ⟨#[
      ⟨1, .add, .identifier "b", .identifier "c", some 1⟩,
      ⟨2, .assign, .identifier "a", .negated (.temporary 1), none⟩]⟩
    let cyclic : Listing := ⟨#[⟨1, .assign, .identifier "a", .temporary 1, none⟩]⟩
    let dangling : Listing := ⟨#[⟨1, .assign, .identifier "a", .temporary 5, none⟩]⟩
    ((∀ l ∈ [signed, ⟨#[]⟩, signed], l.HasTree) ∧ ∃ owns, Merges [signed, ⟨#[]⟩, signed] owns) ∧
      (¬∀ l ∈ [signed, cyclic, dangling], l.HasTree) ∧
      ∃ defect, FirstDefect [signed, cyclic, dangling] defect ∧
        Tree.ofListings [signed, cyclic, dangling] = .error defect := by
  intro signed cyclic dangling
  have hsigned : signed.HasTree := by
    refine ⟨.node ⟨6, "Triad"⟩
      (.node ⟨2, "1: + (b c)"⟩ (.leaf ⟨0, "b"⟩) (.leaf ⟨1, "c"⟩))
      (.node ⟨5, "2: := (a - ^1)"⟩ (.leaf ⟨3, "a"⟩) (.leaf ⟨4, "- ^1"⟩)), ?_⟩
    decide +kernel
  have hempty : Listing.HasTree ⟨#[]⟩ := ⟨.empty, by decide +kernel⟩
  have hall : ∀ l ∈ [signed, ⟨#[]⟩, signed], l.HasTree := by
    simpa using ⟨hsigned, hempty, hsigned⟩
  have hsome : ¬∀ l ∈ [signed, cyclic, dangling], l.HasTree := by
    intro h
    obtain ⟨tree, htree⟩ := h cyclic (by simp)
    have hcyclic : Tree.ofListings [cyclic] = .error (.cyclic 1) := by decide +kernel
    rw [hcyclic] at htree
    cases htree
  exact ⟨⟨hall, (ofListings_merges _).1 hall⟩, hsome, (ofListings_merges _).2 hsome⟩

end ThreeAddress
