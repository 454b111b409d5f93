import ThreeAddress.Tree.Expansion

/-!
# The tree of listings

The triads of a listing whose results no operand takes as they are stand at the top. Each of them
is expanded, in order; afterwards every triad has to have been met. The trees of all listings are
then joined from left to right under joints. Leaves are shared within a listing and never
between two of them.
-/
namespace ThreeAddress

namespace Listing

/-- The places of the triads whose result is not taken by any operand. -/
def topLevel (l : Listing) : List (Fin l.triads.size) :=
  let consumed := l.consumed
  (List.finRange l.triads.size).filter fun place =>
    match (l.triadAt place).result? with
    | some temporary => !consumed.contains temporary
    | none => true

/-- The first triad whose number is not in a set. -/
def unvisited? (l : Listing) (visited : NumberSet) : Option Triad :=
  l.triads.find? fun t => !visited.contains t.number

/-- The trees of the triads at the top of a listing. -/
def forest (l : Listing) : Build (List (Tree Node)) := do
  modify fun b => { b with leaves := ∅, visited := ∅ }
  let trees ← l.topLevel.mapM fun place => do
    modify (·.report (.topLevel (l.triadAt place)))
    l.expand place
  match l.unvisited? (← get).visited with
  | some t => throw (.unreachable t.number)
  | none => return trees

end Listing

/-- The label of the nodes that join trees. -/
def jointLabel : String := "Triad"

/-- Joins a tree with the next one. -/
def joinTwo (tree next : Tree Node) : Build (Tree Node) := do
  let (node, b) := (← get).stamped jointLabel
  set b
  return .node node tree next

/-- Joins trees from left to right. -/
def joinTrees : List (Tree Node) → Build (Tree Node)
  | [] => return .empty
  | tree :: rest => rest.foldlM joinTwo tree

namespace Tree

/-- Builds the trees of the listings in turn and joins them. -/
def build (listings : List Listing) : Build (Tree Node) := do
  let forests ← listings.mapM Listing.forest
  joinTrees forests.flatten

/-- The tree of all listings, with the events reported on the way. -/
def ofListingsTraced (listings : List Listing) : Traced (Except Defect (Tree Node)) :=
  match (build listings).run {} with
  | .ok tree b => ⟨.ok tree, b.events⟩
  | .error defect b => ⟨.error defect, b.events⟩

/-- The tree of all listings. -/
def ofListings (listings : List Listing) : Except Defect (Tree Node) :=
  (ofListingsTraced listings).result

end Tree
end ThreeAddress
