import Mathlib.Tactic.Tauto
import ThreeAddress.Tree.OfListings

/-!
# Expansion by plain recursion

Expansion works on a stack of tasks, with a cache of leaves and a running count of stamps. None of
this shows in the shape of a tree, in its labels, or in the defect that stops it: `unfold` below is
the recursion that the tasks encode, and `agrees_enter` says that entering a triad leads to what
the recursion gives, from any state. The argument follows the recursion. `Leads` relates what steps
lead to, `agrees_resolve` is one operand, and `agrees_entered` is a triad with everything below it.

Trees of the recursion carry the places of the listing that their nodes stand for. `Makes` says how
the nodes of such a tree are made one after the other. What holds of them is proved by induction on
it, without the tasks: `Makes.built` is about labels and visited triads.
-/
namespace ThreeAddress.Expansion

variable {l : Listing}

/-- What a node of an expanded tree stands for. -/
inductive Origin (l : Listing) where
  | operand (place : Fin l.triads.size) (side : Side)
  | triad (place : Fin l.triads.size)
  deriving DecidableEq

def Origin.label : Origin l → String
  | operand place side => ((l.triadAt place).operand side).text
  | triad place => (l.triadAt place).label

/-- The numbers of the triads in a tree, each as often as it occurs. -/
def numbers : Tree (Origin l) → List Nat
  | .empty => []
  | .node (.operand ..) left right => numbers left ++ numbers right
  | .node (.triad place) left right => (l.triadAt place).number :: (numbers left ++ numbers right)

/-! ## The recursion -/

/-- The numbers of a listing that are not on a path. -/
def fresh (l : Listing) (path : List Nat) : List Nat :=
  (l.triads.toList.map Triad.number).filter (· ∉ path)

theorem length_fresh_cons_lt {path : List Nat} {place : Fin l.triads.size}
    (h : (l.triadAt place).number ∉ path) :
    (fresh l ((l.triadAt place).number :: path)).length < (fresh l path).length := by
  have hsplit : fresh l ((l.triadAt place).number :: path) =
      (fresh l path).filter (· ≠ (l.triadAt place).number) := by
    simp [fresh, List.filter_filter]
  have hmem : (l.triadAt place).number ∈ fresh l path := by
    have hlisted := Listing.mem_toList_triads.2 ⟨place, rfl⟩
    exact List.mem_filter.2 ⟨List.mem_map.2 ⟨_, hlisted, rfl⟩, by simpa using h⟩
  rw [hsplit, List.length_filter_lt_length_iff_exists]
  exact ⟨_, hmem, by simp⟩

/-- The tree of an operand, when `below` gives the trees of triads. -/
def unfoldOperand (below : Fin l.triads.size → Except Defect (Tree (Origin l)))
    (place : Fin l.triads.size) (side : Side) : Except Defect (Tree (Origin l)) :=
  match ((l.triadAt place).operand side).target? with
  | none => .ok (.leaf (.operand place side))
  | some number =>
      match l.indexOf? number with
      | none => .error (.dangling number)
      | some producer => below producer

/-- The tree of the triad at a place, when the triads numbered in `path` are unfinished. -/
def unfold (l : Listing) (path : List Nat) (place : Fin l.triads.size) :
    Except Defect (Tree (Origin l)) :=
  if _h : (l.triadAt place).number ∈ path then .error (.cyclic (l.triadAt place).number)
  else do
    let left ← unfoldOperand (fun p => unfold l ((l.triadAt place).number :: path) p) place .left
    let right ← unfoldOperand (fun p => unfold l ((l.triadAt place).number :: path) p) place .right
    return .node (.triad place) left right
termination_by (fresh l path).length
decreasing_by all_goals exact length_fresh_cons_lt _h

/-! ## What steps lead to -/

/-- Taking steps for as long as one likes. -/
inductive Leads : Progress l → Progress l → Prop where
  | refl (p : Progress l) : Leads p p
  | step {s : State l} {p : Progress l} : Leads (step s) p → Leads (.more s) p

theorem Leads.trans {p q r : Progress l} (hpq : Leads p q) (hqr : Leads q r) : Leads p r := by
  induction hpq with
  | refl => exact hqr
  | step _ ih => exact .step (ih hqr)

/-- A run ends where the steps lead. -/
theorem run_of_leads {p q : Progress l} (h : Leads p q) :
    ∀ {s : State l} (hs : Coherent s), p = .more s →
      (∀ tree b, q = .done tree b → run s hs = .ok tree b) ∧
      (∀ defect b, q = .failed defect b → run s hs = .error defect b) := by
  induction h with
  | refl p =>
      rintro s hs rfl
      constructor <;> intro _ _ h <;> cases h
  | @step s p h ih =>
      rintro s hs ⟨rfl⟩
      rw [run]
      split
      · rename_i t ht
        exact ih (coherent_step hs ht) ht
      · rename_i tree b ht
        rw [ht] at h
        cases h
        constructor <;> intro _ _ h <;> cases h
        rfl
      · rename_i defect b ht
        rw [ht] at h
        cases h
        constructor <;> intro _ _ h <;> cases h
        rfl
      · rename_i ht
        exact absurd ht (step_ne_stuck hs)

/-! ## The cache of leaves -/

theorem slot_inj {n : Nat} {place place' : Fin n} {side side' : Side}
    (h : slot place side = slot place' side') : place = place' ∧ side = side' := by
  cases side <;> cases side' <;> simp only [slot] at h
  · exact ⟨Fin.ext (by omega), rfl⟩
  · omega
  · omega
  · exact ⟨Fin.ext (by omega), rfl⟩

/-- What is kept after a leaf was added is that leaf or was kept before. -/
theorem eq_or_of_getElem?_insert {leaves : Std.TreeMap Nat Node} {slot other : Nat}
    {leaf node : Node} (h : (leaves.insert slot leaf)[other]? = some node) :
    (other = slot ∧ node = leaf) ∨ leaves[other]? = some node := by
  rw [Std.TreeMap.getElem?_insert] at h
  split at h
  · rename_i hslot
    exact .inl ⟨(Std.LawfulEqCmp.eq_of_compare hslot).symm, (Option.some.inj h).symm⟩
  · exact .inr h

/-- Every leaf that is kept has the text of its slot. -/
def Labelled (l : Listing) (b : Builder) : Prop :=
  ∀ (place : Fin l.triads.size) (side : Side) (node : Node),
    b.leaves[slot place side]? = some node → node.label = ((l.triadAt place).operand side).text

theorem labelled_empty {b : Builder} (h : b.leaves = ∅) : Labelled l b := by
  intro place side node hnode
  rw [h] at hnode
  simp at hnode

/-- A leaf has the text of its slot, whether it is new or met again. -/
theorem leafAt_spec {b b' : Builder} {node : Node} {place : Fin l.triads.size} {side : Side}
    (hb : Labelled l b)
    (h : b.leafAt (slot place side) ((l.triadAt place).operand side) = (node, b')) :
    node.label = ((l.triadAt place).operand side).text ∧ Labelled l b' ∧
      b'.visited = b.visited := by
  unfold Builder.leafAt at h
  split at h
  · rename_i kept hkept
    cases h
    exact ⟨hb place side _ hkept, hb, rfl⟩
  · cases h
    refine ⟨rfl, fun place' side' node hnode => ?_, rfl⟩
    rcases eq_or_of_getElem?_insert hnode with ⟨hslot, rfl⟩ | hkept
    · obtain ⟨rfl, rfl⟩ := slot_inj hslot
      rfl
    · exact hb place' side' node hkept

/-! ## The nodes that are made -/

/-- The nodes made for a tree of the recursion, from a builder `b` to a builder `b'`: for an operand
its leaf, for a triad those of both operands and then its own. -/
inductive Makes (l : Listing) : Builder → Tree (Origin l) → Tree Node → Builder → Prop where
  | leaf (b : Builder) (place : Fin l.triads.size) (side : Side) :
      Makes l b (.leaf (.operand place side))
        (.leaf (b.leafAt (slot place side) ((l.triadAt place).operand side)).1)
        (b.leafAt (slot place side) ((l.triadAt place).operand side)).2
  | triad {b bL bR : Builder} {place : Fin l.triads.size} {left right : Tree (Origin l)}
      {treeL treeR : Tree Node}
      (left_makes :
        Makes l { b with visited := b.visited.insert (l.triadAt place).number } left treeL bL)
      (right_makes : Makes l bL right treeR bR) :
      Makes l b (.node (.triad place) left right)
        (.node (bR.stamped (l.triadAt place).label).1 treeL treeR)
        (bR.stamped (l.triadAt place).label).2

/-- What shows of the nodes made: they have the labels of the tree of the recursion, and the triads
in it have been visited. -/
structure Built (b : Builder) (t : Tree (Origin l)) (tree : Tree Node) (b' : Builder) : Prop where
  labels : tree.map Node.label = t.map Origin.label
  labelled : Labelled l b'
  visited : ∀ number, number ∈ b'.visited ↔ number ∈ b.visited ∨ number ∈ numbers t

theorem Makes.built {b b' : Builder} {t : Tree (Origin l)} {tree : Tree Node}
    (h : Makes l b t tree b') (hb : Labelled l b) : Built b t tree b' := by
  induction h with
  | leaf b place side =>
      obtain ⟨hlabel, hlabelled, hvisited⟩ := leafAt_spec hb (Prod.eta _).symm
      refine ⟨congrArg Tree.leaf hlabel, hlabelled, fun number => ?_⟩
      simp only [hvisited, numbers, Tree.leaf, List.append_nil, List.not_mem_nil, or_false]
  | triad _ _ ihl ihr =>
      have hbuiltL := ihl hb
      have hbuiltR := ihr hbuiltL.labelled
      refine ⟨?_, hbuiltR.labelled, fun number => ?_⟩
      · simp [Tree.map, hbuiltL.labels, hbuiltR.labels, Builder.stamped, Origin.label]
      · -- The triad itself was visited on entering, each operand by its own steps.
        simp only [Builder.stamped, hbuiltR.visited, hbuiltL.visited, NumberSet.mem_insert_iff,
          numbers, List.mem_cons, List.mem_append]
        tauto

/-! ## The steps follow the recursion -/

/-- What `p` leads to, against a result of the recursion: a finished tree on top of `nodes` with
`tasks` still to be done and the path as it was, or the defect. -/
def Agrees (p : Progress l) (b : Builder) (path : List Nat) (tasks : List (Task l))
    (nodes : List (Tree Node)) : Except Defect (Tree (Origin l)) → Prop
  | .ok t => ∃ tree b' path', Leads p (.more ⟨b', path', tasks, tree :: nodes⟩) ∧
      Makes l b t tree b' ∧ ∀ number, number ∈ path' ↔ number ∈ path
  | .error defect => ∃ b', Leads p (.failed defect b')

/-- Entering a triad agrees with what `below` says of it, from every state with this path. -/
def EntersAs (path : List Nat)
    (below : Fin l.triads.size → Except Defect (Tree (Origin l))) : Prop :=
  ∀ (place : Fin l.triads.size) (s : State l), (∀ number, number ∈ s.path ↔ number ∈ path) →
    Agrees (enter place s) s.builder path s.tasks s.nodes (below place)

theorem agrees_resolve {path : List Nat}
    {below : Fin l.triads.size → Except Defect (Tree (Origin l))} (hbelow : EntersAs path below)
    {place : Fin l.triads.size} {side : Side} {s : State l} {tasks : List (Task l)}
    (hpath : ∀ number, number ∈ s.path ↔ number ∈ path)
    (htasks : s.tasks = .resolve place side :: tasks) :
    Agrees (step s) s.builder path tasks s.nodes (unfoldOperand below place side) := by
  unfold step unfoldOperand
  simp only [htasks]
  cases ((l.triadAt place).operand side).target? with
  | some number =>
      simp only
      cases l.indexOf? number with
      | some producer => exact hbelow producer { s with tasks } hpath
      | none => exact ⟨_, .refl _⟩
  | none => exact ⟨_, _, _, .refl _, .leaf .., hpath⟩

/-- Joining puts the node of the triad above its operands and takes its number off the path. -/
theorem leads_join {place : Fin l.triads.size} {b : Builder} {path : NumberSet}
    {tasks : List (Task l)} {left right : Tree Node} {nodes : List (Tree Node)} :
    Leads (.more ⟨b, path, .join place :: tasks, right :: left :: nodes⟩)
      (.more ⟨(b.stamped (l.triadAt place).label).2, path.erase (l.triadAt place).number, tasks,
        .node (b.stamped (l.triadAt place).label).1 left right :: nodes⟩) := .step (.refl _)

theorem enter_of_mem {place : Fin l.triads.size} {s : State l}
    (h : (l.triadAt place).number ∈ s.path) :
    enter place s = .failed (.cyclic (l.triadAt place).number) s.builder := by
  exact if_pos (NumberSet.contains_iff_mem.2 h)

/-- The state in which the operands of a newly entered triad are still to be resolved. -/
def entered (place : Fin l.triads.size) (s : State l) : State l where
  builder := { s.builder with visited := s.builder.visited.insert (l.triadAt place).number }
  path := s.path.insert (l.triadAt place).number
  tasks := tasksOf place s.tasks
  nodes := s.nodes

theorem enter_of_not_mem {place : Fin l.triads.size} {s : State l}
    (h : (l.triadAt place).number ∉ s.path) : enter place s = .more (entered place s) := by
  exact if_neg fun hmem => h (NumberSet.contains_iff_mem.1 hmem)

/-- One triad, from what is known of the triads below it. -/
theorem agrees_entered {path : List Nat} {place : Fin l.triads.size} {s : State l}
    {below : Fin l.triads.size → Except Defect (Tree (Origin l))}
    (hbelow : EntersAs ((l.triadAt place).number :: path) below)
    (hfresh : (l.triadAt place).number ∉ path)
    (hpath : ∀ number, number ∈ s.path ↔ number ∈ path) :
    Agrees (.more (entered place s)) s.builder path s.tasks s.nodes (do
      let left ← unfoldOperand below place .left
      let right ← unfoldOperand below place .right
      return .node (.triad place) left right) := by
  have hentered : ∀ number, number ∈ (entered place s).path ↔
      number ∈ (l.triadAt place).number :: path := by
    intro number
    simp only [entered, NumberSet.mem_insert_iff, hpath, List.mem_cons]
  have hleft := agrees_resolve hbelow (s := entered place s) hentered rfl
  cases hl : unfoldOperand below place .left with
  | error defect =>
      rw [hl] at hleft
      obtain ⟨b', hleads⟩ := hleft
      exact ⟨b', .step hleads⟩
  | ok left =>
      rw [hl] at hleft
      obtain ⟨treeL, bL, pathL, hleadsL, hmakesL, hpathL⟩ := hleft
      have hright := agrees_resolve hbelow
        (s := ⟨bL, pathL, .resolve place .right :: .join place :: s.tasks, treeL :: s.nodes⟩)
        hpathL rfl
      cases hr : unfoldOperand below place .right with
      | error defect =>
          rw [hr] at hright
          obtain ⟨b', hleads⟩ := hright
          exact ⟨b', (Leads.step hleadsL).trans (.step hleads)⟩
      | ok right =>
          rw [hr] at hright
          obtain ⟨treeR, bR, pathR, hleadsR, hmakesR, hpathR⟩ := hright
          refine ⟨_, _, _, ((Leads.step hleadsL).trans (.step hleadsR)).trans leads_join,
            .triad hmakesL hmakesR, fun number => ?_⟩
          rw [NumberSet.mem_erase_iff, hpathR, List.mem_cons]
          constructor
          · rintro ⟨hother, rfl | hmem⟩
            · exact absurd rfl hother
            · exact hmem
          · exact fun hmem => ⟨fun hsame => hfresh (hsame ▸ hmem), .inr hmem⟩

/-- Entering a triad leads to what the recursion gives. -/
theorem agrees_enter (l : Listing) (path : List Nat) : EntersAs path (unfold l path) := by
  -- Only the path matters for the recursion, so the induction is on what it leaves fresh.
  induction hn : (fresh l path).length using Nat.strongRecOn generalizing path with
  | ind n ih =>
      intro place s hpath
      rw [unfold]
      split
      · rename_i hmem
        rw [enter_of_mem ((hpath _).2 hmem)]
        exact ⟨_, .refl _⟩
      · rename_i hfresh
        rw [enter_of_not_mem (fun hmem => hfresh ((hpath _).1 hmem))]
        have hless := length_fresh_cons_lt hfresh
        exact agrees_entered (ih _ (hn ▸ hless) _ rfl) hfresh hpath

end ThreeAddress.Expansion
