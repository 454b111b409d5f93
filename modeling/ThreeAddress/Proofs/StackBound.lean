import Mathlib.Data.Finset.Card
import ThreeAddress.Proofs.Recursion

/-!
# The stacks of an expansion

Expansion ends on every listing, however its triads refer to each other, and needs little room: of
the operands of an unfinished triad at most one waits on the stack of tasks, the right one, except
right after the triad was entered. Unfinished triads have different numbers, so there are never more
tasks than twice the numbers of the listing and one. The stack is emptied by joining the triad
that was expanded, and by nothing else.
-/
namespace ThreeAddress

/-- How many different numbers the triads of a listing have. -/
def Listing.distinctNumbers (l : Listing) : Nat :=
  (l.triads.toList.map Triad.number).toFinset.card

namespace Expansion

variable {l : Listing} {root place : Fin l.triads.size} {tasks rest : List (Task l)}

/-! ## The shape of the stack of tasks -/

/-- Tasks between two entries: at the bottom the root is to be joined, and above each triad to be
joined at most its right operand waits. -/
inductive Settled (root : Fin l.triads.size) : List (Task l) → Prop where
  | root : Settled root [.join root]
  | join {rest : List (Task l)} (place : Fin l.triads.size) (below : Settled root rest) :
      Settled root (.join place :: rest)
  | right {place : Fin l.triads.size} {rest : List (Task l)}
      (below : Settled root (.join place :: rest)) :
      Settled root (.resolve place .right :: .join place :: rest)

/-- Tasks before a step. -/
inductive Stacked (root : Fin l.triads.size) : List (Task l) → Prop where
  | finished : Stacked root []
  | settled {tasks : List (Task l)} (h : Settled root tasks) : Stacked root tasks
  | entered {place : Fin l.triads.size} {rest : List (Task l)}
      (below : Settled root (.join place :: rest)) : Stacked root (tasksOf place rest)

theorem Settled.ne_nil (h : Settled root tasks) : tasks ≠ [] := by
  cases h <;> exact List.cons_ne_nil _ _

theorem Stacked.of_resolve {side : Side} (h : Stacked root (.resolve place side :: rest)) :
    Settled root rest := by
  cases h with
  | settled h =>
    cases h with
    | right below => exact below
  | entered below => exact .right below

theorem Stacked.of_join (h : Stacked root (.join place :: rest)) :
    Settled root rest ∨ (place = root ∧ rest = []) := by
  cases h with
  | settled h =>
    cases h with
    | root => exact .inr ⟨rfl, rfl⟩
    | join _ below => exact .inl below

/-- Every triad to be joined has at most one operand above it, and none if it is on top. -/
theorem Settled.length_le (h : Settled root tasks) :
    tasks.length ≤ 2 * (joining tasks).length ∧
      ∀ place rest, tasks = .join place :: rest → tasks.length < 2 * (joining tasks).length := by
  induction h with
  | root => simp [joining]
  | join place below ih =>
    simp only [joining, List.length_cons]
    constructor
    · omega
    · intros
      omega
  | right below ih =>
    have htop := ih.2 _ _ rfl
    simp only [joining, List.length_cons] at htop ⊢
    constructor
    · omega
    · intro place rest heq
      cases heq

theorem Stacked.length_le (h : Stacked root tasks) :
    tasks.length ≤ 2 * (joining tasks).length + 1 := by
  cases h with
  | finished => exact Nat.zero_le _
  | settled h => exact Nat.le_succ_of_le h.length_le.1
  | @entered place rest below =>
    have htop := below.length_le.2 _ _ rfl
    simp only [tasksOf, joining, List.length_cons] at htop ⊢
    omega

/-! ## What steps keep -/

theorem stacked_start (place : Fin l.triads.size) (b : Builder) :
    Stacked place (start place b).tasks := .entered .root

theorem Steps.stacked {s t : State l} (h : Steps s t) (hs : Stacked root s.tasks) :
    Stacked root t.tasks := by
  cases h with
  | enter next =>
    rw [next] at hs
    exact .entered (.join _ hs.of_resolve)
  | leaf next =>
    rw [next] at hs
    exact .settled hs.of_resolve
  | join next =>
    rw [next] at hs
    rcases hs.of_join with below | ⟨-, hempty⟩
    · exact .settled below
    · rw [hempty]
      exact .finished

/-- The last task is that of joining the root. -/
theorem Steps.eq_join_root {s t : State l} (h : Steps s t) (hs : Stacked root s.tasks)
    (hempty : t.tasks = []) : s.tasks = [.join root] := by
  cases h with
  | enter next => cases hempty
  | leaf next =>
    rw [next] at hs
    exact absurd hempty hs.of_resolve.ne_nil
  | join next =>
    rw [next] at hs ⊢
    rcases hs.of_join with below | ⟨rfl, hrest⟩
    · exact absurd hempty below.ne_nil
    · rw [hrest]

theorem stacked_of_reaches {b : Builder} {s : State l} (h : Reaches (start place b) s) :
    Coherent s ∧ Stacked place s.tasks := by
  induction h with
  | refl => exact ⟨coherent_start place b, stacked_start place b⟩
  | tail _ hstep ih =>
    exact ⟨coherent_step ih.1 hstep, (steps_of_step hstep).stacked ih.2⟩

/-- The triads to be joined have different numbers of the listing. -/
theorem length_joining_le {s : State l} (hs : Coherent s) :
    (joining s.tasks).length ≤ l.distinctNumbers := by
  rw [← List.toFinset_card_of_nodup hs.nodup]
  apply Finset.card_le_card
  intro number hnumber
  rw [List.mem_toFinset] at hnumber ⊢
  exact joining_mem hnumber

/-! ## Expansion ends -/

/-- What holds at the head of every turn of the loop that expands the triad `root`. -/
structure AtHead (root : Fin l.triads.size) (s : State l) : Prop where
  /-- The triads to be joined have different numbers, and they are the unfinished ones. -/
  distinct : (joining s.tasks).Nodup
  unfinished : ∀ number, number ∈ s.path ↔ number ∈ joining s.tasks
  bounded : s.tasks.length ≤ 2 * l.distinctNumbers + 1
  /-- Whoever joins finds two trees. -/
  joins : ∀ place tasks, s.tasks = .join place :: tasks →
    ∃ left right nodes, s.nodes = right :: left :: nodes
  /-- Only joining the root empties the stack. -/
  emptied : ∀ t, step s = .more t → t.tasks = [] → s.tasks = [.join root]
  /-- Once the stack is empty, the tree of the root is the only node and the result. -/
  finished : s.tasks = [] → ∃ tree, s.nodes = [tree] ∧ step s = .done tree s.builder

theorem exists_nodes_of_fits {s : State l} (hs : Coherent s) (h : s.tasks = .join place :: rest) :
    ∃ left right nodes, s.nodes = right :: left :: nodes := by
  have hfits := hs.fits
  rw [h] at hfits
  match hnodes : s.nodes with
  | [] | [_] =>
    rw [hnodes] at hfits
    exact absurd hfits.1 (by simp)
  | right :: left :: nodes => exact ⟨left, right, nodes, rfl⟩

theorem atHead_of_reaches {b : Builder} {s : State l} (h : Reaches (start root b) s) :
    AtHead root s := by
  obtain ⟨hs, hstacked⟩ := stacked_of_reaches h
  refine ⟨hs.nodup, hs.mem_path, ?_, fun place tasks => exists_nodes_of_fits hs, ?_, ?_⟩
  · have htasks := hstacked.length_le
    have hjoining := length_joining_le hs
    omega
  · intro t hstep hempty
    exact (steps_of_step hstep).eq_join_root hstacked hempty
  · intro hempty
    have hfits := hs.fits
    rw [hempty] at hfits
    obtain ⟨tree, htree⟩ := List.length_eq_one_iff.mp hfits
    refine ⟨tree, htree, ?_⟩
    unfold step
    rw [hempty, htree]

end Expansion

open Expansion

/-- Expanding a triad of any listing ends, with a tree or a defect. It starts with tasks on the
stack, and at the head of every turn the stacks are as `AtHead` says; no turn gets stuck. -/
theorem expansion_ends_in_bounds (l : Listing) (place : Fin l.triads.size) (b : Builder) :
    ((∃ tree b', Leads (enter place ⟨b, ∅, [], []⟩) (.done tree b') ∧
        l.expand place b = .ok tree b') ∨
      ∃ defect b', Leads (enter place ⟨b, ∅, [], []⟩) (.failed defect b') ∧
        l.expand place b = .error defect b') ∧
    (∃ s, enter place ⟨b, ∅, [], []⟩ = .more s ∧ s.tasks ≠ []) ∧
    ∀ s, Leads (enter place ⟨b, ∅, [], []⟩) (.more s) → AtHead place s ∧ step s ≠ .stuck := by
  rw [enter_empty]
  refine ⟨?_, ⟨_, rfl, List.cons_ne_nil _ _⟩, ?_⟩
  · obtain ⟨hok, herror⟩ := leads_run (coherent_start place b)
    cases hrun : l.expand place b with
    | ok tree b' => exact .inl ⟨tree, b', hok tree b' hrun, rfl⟩
    | error defect b' => exact .inr ⟨defect, b', herror defect b' hrun, rfl⟩
  · intro s hs
    rw [leads_iff_reaches] at hs
    exact ⟨atHead_of_reaches hs, step_ne_stuck (stacked_of_reaches hs).1⟩

end ThreeAddress
