import ThreeAddress.Proofs.Unfolding

/-!
# Outlines of trees

The outline of a listing is its forest by plain recursion, with labels only. The tree that is built
from listings has the outlines' labels in the outlines' shape, and building fails exactly where an
outline does, with the same defect: `map_label_ofListings` is an equation between the two results,
for all listings. Statements about shapes, labels and defects of built trees are read off it
without a builder.
-/
namespace ThreeAddress

open Expansion

/-! ## Builds against results -/

/-- A build that starts from `b` ends as `r` says: with a value related to that of `r`, or with the
same defect. -/
def Yields (x : Build α) (b : Builder) (r : Except Defect β) (R : β → α → Builder → Prop) : Prop :=
  match r with
  | .ok v => ∃ a b', x b = .ok a b' ∧ R v a b'
  | .error defect => ∃ b', x b = .error defect b'

namespace Yields

theorem pure {a : α} {b : Builder} {v : β} {R : β → α → Builder → Prop} (h : R v a b) :
    Yields (pure a) b (pure v) R := ⟨a, b, rfl, h⟩

theorem bind {x : Build α} {b : Builder} {r : Except Defect β} {R : β → α → Builder → Prop}
    {f : α → Build γ} {g : β → Except Defect δ} {S : δ → γ → Builder → Prop}
    (hx : Yields x b r R) (hf : ∀ v a b', R v a b' → Yields (f a) b' (g v) S) :
    Yields (x >>= f) b (r >>= g) S := by
  have hrun : (x >>= f) b = EStateM.bind x f b := rfl
  unfold Yields
  rw [hrun, EStateM.bind]
  cases r with
  | error defect =>
      obtain ⟨b', h⟩ := hx
      rw [h]
      exact ⟨b', rfl⟩
  | ok v =>
      obtain ⟨a, b', h, hR⟩ := hx
      rw [h]
      exact hf v a b' hR

/-- A build that succeeds is one for which the result says so. -/
theorem exists_of_ok {x : Build α} {b b' : Builder} {r : Except Defect β}
    {R : β → α → Builder → Prop} {a : α} (h : Yields x b r R) (hx : x b = .ok a b') :
    ∃ v, r = .ok v ∧ R v a b' := by
  cases r with
  | error defect =>
      obtain ⟨b'', hfailed⟩ := h
      rw [hx] at hfailed
      cases hfailed
  | ok v =>
      obtain ⟨a', b'', hrun, hR⟩ := h
      rw [hx] at hrun
      cases hrun
      exact ⟨v, rfl, hR⟩

end Yields

/-! ## Expanding from any builder -/

section
variable {l : Listing}

/-- The steps from nothing unfinished have come to the tree with nothing unfinished left. -/
def Expansion.Finishes (place : Fin l.triads.size) (b : Builder) (tree : Tree Node) (b' : Builder) :
    Prop :=
  ∃ path : NumberSet, Leads (enter place ⟨b, ∅, [], []⟩) (.more ⟨b', path, [], [tree]⟩) ∧
    ∀ number, number ∉ path

theorem expand_makes (place : Fin l.triads.size) (b : Builder) :
    Yields (l.expand place) b (Expansion.unfold l [] place) fun t tree b' =>
      Makes l b t tree b' ∧ Finishes place b tree b' := by
  have hnothing : ∀ number, number ∈ (∅ : NumberSet) ↔ number ∈ ([] : List Nat) := by simp
  have h := agrees_enter l [] place ⟨b, ∅, [], []⟩ hnothing
  have hstart : enter place ⟨b, ∅, [], []⟩ = .more (start place b) :=
    enter_of_not_mem (by simp)
  cases hr : Expansion.unfold l [] place with
  | error defect =>
      rw [hr, hstart] at h
      obtain ⟨b', hleads⟩ := h
      exact ⟨b', (run_of_leads hleads (coherent_start place b) rfl).2 _ _ rfl⟩
  | ok t =>
      rw [hr] at h
      obtain ⟨tree, b', path, hleads, hmakes, hpath⟩ := h
      have hdone : Leads (.more (start place b)) (.done tree b') :=
        hstart ▸ hleads.trans (.step (.refl _))
      refine ⟨tree, b', (run_of_leads hdone (coherent_start place b) rfl).1 _ _ rfl, hmakes, path,
        hleads, fun number hmem => ?_⟩
      exact List.not_mem_nil ((hpath number).1 hmem)

/-- The nodes made one tree after the other, with a report before each. -/
inductive MakesAll (l : Listing) :
    Builder → List (Tree (Origin l)) → List (Tree Node) → Builder → Prop where
  | nil (b : Builder) : MakesAll l b [] [] b
  | cons {b b' b'' : Builder} {event : Event} {t : Tree (Origin l)} {tree : Tree Node}
      {ts : List (Tree (Origin l))} {trees : List (Tree Node)}
      (first : Makes l (b.report event) t tree b') (others : MakesAll l b' ts trees b'') :
      MakesAll l b (t :: ts) (tree :: trees) b''

theorem mapM_expand_makes (places : List (Fin l.triads.size)) (b : Builder) :
    Yields (places.mapM fun place => do
      modify (·.report (.topLevel (l.triadAt place)))
      l.expand place) b (places.mapM (Expansion.unfold l [])) (MakesAll l b) := by
  induction places generalizing b with
  | nil => exact .pure (.nil b)
  | cons place places ih =>
      rw [List.mapM_cons, List.mapM_cons]
      have hplace := expand_makes place (b.report (.topLevel (l.triadAt place)))
      refine Yields.bind hplace fun t tree b' hmakes => ?_
      exact (ih b').bind fun ts trees b'' hall => .pure (.cons hmakes.1 hall)

/-- What shows of the trees made one after the other for the trees `ts` of the recursion. -/
structure BuiltAll (b : Builder) (ts : List (Tree (Origin l))) (trees : List (Tree Node))
    (b' : Builder) : Prop where
  labels : trees.map (Tree.map Node.label) = ts.map (Tree.map Origin.label)
  labelled : Labelled l b'
  visited : ∀ number, number ∈ b'.visited ↔ number ∈ b.visited ∨ number ∈ ts.flatMap numbers

theorem MakesAll.built {b b' : Builder} {ts : List (Tree (Origin l))} {trees : List (Tree Node)}
    (h : MakesAll l b ts trees b') (hb : Labelled l b) : BuiltAll b ts trees b' := by
  induction h with
  | nil b => exact ⟨rfl, hb, by simp⟩
  | @cons b b' b'' event t tree ts trees first others ih =>
      -- A report changes neither the leaves nor what was visited.
      have hreport : Labelled l (b.report event) := hb
      have hbuilt := first.built hreport
      have hall := ih hbuilt.labelled
      refine ⟨?_, hall.labelled, fun number => ?_⟩
      · rw [List.map_cons, List.map_cons, hbuilt.labels, hall.labels]
      · rw [hall.visited, hbuilt.visited, List.flatMap_cons, List.mem_append, or_assoc]
        rfl

end

/-! ## Outlines -/

namespace Listing

/-- Which triad is missed depends on the members of the set only. -/
theorem unvisited?_congr (l : Listing) {visited visited' : NumberSet}
    (h : ∀ number, number ∈ visited ↔ number ∈ visited') :
    l.unvisited? visited = l.unvisited? visited' := by
  have hcontains : ∀ t : Triad, visited.contains t.number = visited'.contains t.number := by
    intro t
    rw [Bool.eq_iff_iff, NumberSet.contains_iff_mem, NumberSet.contains_iff_mem, h]
  simp only [unvisited?, hcontains]

/-- The labels and shapes of the trees at the top of a listing. -/
def outline (l : Listing) : Except Defect (List (Tree String)) := do
  let trees ← l.topLevel.mapM (Expansion.unfold l [])
  match l.unvisited? (.ofList (trees.flatMap numbers)) with
  | some t => throw (.unreachable t.number)
  | none => return trees.map (Tree.map Origin.label)

theorem forest_agrees (l : Listing) (b : Builder) :
    Yields l.forest b l.outline fun ts trees _ => trees.map (Tree.map Node.label) = ts := by
  have hempty : Labelled l { b with leaves := ∅, visited := ∅ } := labelled_empty rfl
  refine (mapM_expand_makes l.topLevel _).bind fun ts trees b' hmakes => ?_
  have hall := hmakes.built hempty
  have hvisited : ∀ number, number ∈ b'.visited ↔
      number ∈ (Std.TreeSet.ofList (ts.flatMap numbers) : NumberSet) := by
    intro number
    rw [hall.visited, NumberSet.mem_ofList_iff]
    simp
  rw [← l.unvisited?_congr hvisited]
  change Yields (match l.unvisited? b'.visited with
    | some t => throw (.unreachable t.number)
    | none => return trees) b' _ _
  cases l.unvisited? b'.visited with
  | some t => exact ⟨b', rfl⟩
  | none => exact .pure hall.labels

theorem mapM_forest_agrees (listings : List Listing) (b : Builder) :
    Yields (listings.mapM forest) b (listings.mapM outline) fun tss forests _ =>
      forests.map (List.map (Tree.map Node.label)) = tss := by
  induction listings generalizing b with
  | nil => exact .pure rfl
  | cons l listings ih =>
      rw [List.mapM_cons, List.mapM_cons]
      refine (l.forest_agrees b).bind fun ts trees b' htrees => ?_
      refine (ih b').bind fun tss forests b'' hforests => .pure ?_
      rw [List.map_cons, htrees, hforests]

end Listing

/-! ## Combs -/

namespace Tree

variable {α β : Type}

/-- Joins the next trees to a tree. The nodes above them have the values numbered from `n` on. -/
def joinWith (value : Nat → α) (n : Nat) (tree : Tree α) : List (Tree α) → Tree α
  | [] => tree
  | next :: rest => joinWith value (n + 1) (node (value n) tree next) rest

/-- The left comb of trees. The nodes above them have the values numbered from `n` on. -/
def combWith (value : Nat → α) (n : Nat) : List (Tree α) → Tree α
  | [] => empty
  | tree :: rest => joinWith value n tree rest

theorem map_combWith (f : α → β) (value : Nat → α) (n : Nat) (trees : List (Tree α)) :
    (combWith value n trees).map f = combWith (fun k => f (value k)) n (trees.map (map f)) := by
  cases trees with
  | nil => rfl
  | cons tree rest =>
    simp only [combWith, List.map_cons]
    induction rest generalizing n tree with
    | nil => rfl
    | cons next rest ih => exact ih (n + 1) (node (value n) tree next)

/-- Only the values of the nodes that are made matter. -/
theorem combWith_congr {value value' : Nat → α} {n n' : Nat} {trees : List (Tree α)}
    (h : ∀ k < trees.length - 1, value (n + k) = value' (n' + k)) :
    combWith value n trees = combWith value' n' trees := by
  cases trees with
  | nil => rfl
  | cons tree rest =>
    simp only [combWith]
    induction rest generalizing n n' tree with
    | nil => rfl
    | cons next rest ih =>
      have hfirst : value n = value' n' := h 0 (Nat.succ_pos _)
      rw [joinWith, joinWith, hfirst]
      refine ih _ fun k hk => ?_
      have hnext := h (k + 1) (Nat.succ_lt_succ hk)
      rwa [Nat.add_right_comm, Nat.add_right_comm n']

end Tree

/-- Trees under joints, from left to right. -/
def comb (trees : List (Tree String)) : Tree String := Tree.combWith (fun _ => jointLabel) 0 trees

/-- The left comb of trees, with joints that take the stamps from `n` on. -/
def combFrom (n : Nat) (trees : List (Tree Node)) : Tree Node :=
  Tree.combWith (fun k => ⟨k, jointLabel⟩) n trees

theorem map_label_combFrom (n : Nat) (trees : List (Tree Node)) :
    (combFrom n trees).map Node.label = comb (trees.map (Tree.map Node.label)) := by
  rw [combFrom, Tree.map_combWith]
  exact Tree.combWith_congr fun _ _ => rfl

/-- Joining never fails, and reports nothing. -/
theorem joinTrees_apply (trees : List (Tree Node)) (b : Builder) :
    ∃ b', joinTrees trees b = .ok (combFrom b.stamps trees) b' ∧ b'.events = b.events := by
  cases trees with
  | nil => exact ⟨b, rfl, rfl⟩
  | cons tree rest =>
    simp only [joinTrees, combFrom, Tree.combWith]
    induction rest generalizing tree b with
    | nil => exact ⟨b, rfl, rfl⟩
    | cons next rest ih =>
      exact ih (b.stamped jointLabel).2 (.node (b.stamped jointLabel).1 tree next)

theorem joinTrees_agrees (trees : List (Tree Node)) (b : Builder) :
    Yields (joinTrees trees) b (pure (comb (trees.map (Tree.map Node.label))))
      fun t tree _ => tree.map Node.label = t := by
  obtain ⟨b', hjoin, -⟩ := joinTrees_apply trees b
  exact ⟨_, b', hjoin, map_label_combFrom b.stamps trees⟩

/-! ## Built trees -/

/-- The labels, the shape and the defects of built trees are those of the outlines. -/
theorem map_label_ofListings (listings : List Listing) :
    (Tree.ofListings listings).map (Tree.map Node.label) =
      (listings.mapM Listing.outline).map fun outlines => comb outlines.flatten := by
  have hbuild : Yields (Tree.build listings) {} ((listings.mapM Listing.outline).map
      fun outlines => comb outlines.flatten) fun t tree _ => tree.map Node.label = t := by
    refine (Listing.mapM_forest_agrees listings {}).bind fun tss forests b hforests => ?_
    have h := joinTrees_agrees forests.flatten b
    rwa [List.map_flatten, hforests] at h
  unfold Tree.ofListings Tree.ofListingsTraced EStateM.run
  generalize (listings.mapM Listing.outline).map (fun outlines => comb outlines.flatten) = r
    at hbuild ⊢
  cases r with
  | error defect =>
      obtain ⟨b, hrun⟩ := hbuild
      rw [hrun]
      rfl
  | ok t =>
      obtain ⟨tree, b, hrun, rfl⟩ := hbuild
      rw [hrun]
      rfl
end ThreeAddress
