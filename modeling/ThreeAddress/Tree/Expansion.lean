import Std.Data.TreeMap
import ThreeAddress.Event
import ThreeAddress.Listing.Basic
import ThreeAddress.Tree.Node

/-!
# Expanding a triad

The tree of a triad has the trees of its operands below it. An operand that is a temporary is
expanded into the triad with its number; any other operand is a leaf. Expansion keeps the work
still to be done on a stack of tasks and the finished subtrees on a stack of nodes, so a long chain
of temporaries needs no deep recursion.

Triads refer to each other freely, so expansion may come back to a triad that it has not finished.
The numbers of unfinished triads form the path; meeting one of them again is an error. Hence the
triads waiting to be joined have different numbers, there are at most as many of them as triads in
the listing, and expansion ends. `Coherent` states what holds before every step; `run` carries it
along.
-/
namespace ThreeAddress

/-- Why no tree can be built. -/
inductive Defect where
  | dangling (temporary : Nat)
  | cyclic (number : Nat)
  | unreachable (number : Nat)
  deriving DecidableEq, Repr

def Defect.message : Defect → String
  | dangling temporary =>
      "temporary " ++ temporaryText temporary ++ " does not refer to any triad"
  | cyclic number => "triad " ++ toString number ++ " refers to its own result"
  | unreachable number =>
      "triad " ++ toString number ++ " is not reachable from any top-level triad"

/-- What is kept from one expansion to the next. -/
structure Builder where
  /-- The leaves made so far, by operand slot. -/
  leaves : Std.TreeMap Nat Node := ∅
  /-- The numbers of the triads expanded so far. -/
  visited : NumberSet := ∅
  /-- Stamps given out so far. -/
  stamps : Nat := 0
  events : Array Event := #[]

/-- A computation that builds, and keeps what it has built when it fails. -/
abbrev Build := EStateM Defect Builder

namespace Builder

def report (b : Builder) (event : Event) : Builder := { b with events := b.events.push event }

/-- A new node. -/
def stamped (b : Builder) (label : String) : Node × Builder :=
  (⟨b.stamps, label⟩, { b with stamps := b.stamps + 1 })

/-- The leaf of an operand slot: made at the first call, and the same one later. -/
def leafAt (b : Builder) (slot : Nat) (operand : Operand) : Node × Builder :=
  match b.leaves[slot]? with
  | some node => (node, b.report (.reused operand))
  | none =>
      let (node, b) := b.stamped operand.text
      (node, { b with leaves := b.leaves.insert slot node })

end Builder

namespace Expansion

/-- A step to be taken. Triads are named by their place in the listing. -/
inductive Task (l : Listing) where
  /-- Puts the tree of an operand on the stack of nodes. -/
  | resolve (place : Fin l.triads.size) (side : Side)
  /-- Joins the trees of both operands under the triad. -/
  | join (place : Fin l.triads.size)

/-- The number of an operand slot among all slots of its listing. -/
def slot (place : Fin n) : Side → Nat
  | .left => 2 * place.val
  | .right => 2 * place.val + 1

structure State (l : Listing) where
  builder : Builder
  /-- Numbers of the triads entered and not yet joined. -/
  path : NumberSet
  tasks : List (Task l)
  nodes : List (Tree Node)

/-- What a step leads to. -/
inductive Progress (l : Listing) where
  | more (state : State l)
  | done (tree : Tree Node) (builder : Builder)
  | failed (defect : Defect) (builder : Builder)
  /-- The stack of nodes does not hold what the tasks need. -/
  | stuck

variable {l : Listing}

/-- The tasks of a triad: its left operand, its right operand, then the node above both. -/
def tasksOf (place : Fin l.triads.size) (rest : List (Task l)) : List (Task l) :=
  .resolve place .left :: .resolve place .right :: .join place :: rest

/-- Starts on a triad, unless it is unfinished already. -/
def enter (place : Fin l.triads.size) (s : State l) : Progress l :=
  let number := (l.triadAt place).number
  if s.path.contains number then .failed (.cyclic number) s.builder
  else
    .more
      { builder := { s.builder with visited := s.builder.visited.insert number }
        path := s.path.insert number
        tasks := tasksOf place s.tasks
        nodes := s.nodes }

/-- Takes the next task. -/
def step (s : State l) : Progress l :=
  match s.tasks with
  | [] =>
      match s.nodes with
      | [tree] => .done tree s.builder
      | _ => .stuck
  | .resolve place side :: tasks =>
      let operand := (l.triadAt place).operand side
      match operand.target? with
      | some number =>
          match l.indexOf? number with
          | some producer => enter producer { s with tasks }
          | none => .failed (.dangling number) s.builder
      | none =>
          let (node, builder) := s.builder.leafAt (slot place side) operand
          .more { s with builder, tasks, nodes := .leaf node :: s.nodes }
  | .join place :: tasks =>
      match s.nodes with
      | right :: left :: nodes =>
          let triad := l.triadAt place
          let (node, builder) := s.builder.stamped triad.label
          .more
            { builder, tasks
              path := s.path.erase triad.number
              nodes := .node node left right :: nodes }
      | _ => .stuck

/-! ## Why expansion ends -/

/-- The numbers of the triads waiting to be joined, the next one first. -/
def joining : List (Task l) → List Nat
  | [] => []
  | .resolve .. :: rest => joining rest
  | .join place :: rest => (l.triadAt place).number :: joining rest

/-- The tasks turn a stack of `n` nodes into a single one without running out of nodes. -/
def Fits : List (Task l) → Nat → Prop
  | [], n => n = 1
  | .resolve .. :: rest, n => Fits rest (n + 1)
  | .join _ :: rest, n => 2 ≤ n ∧ Fits rest (n - 1)

/-- What holds before every step. -/
structure Coherent (s : State l) : Prop where
  nodup : (joining s.tasks).Nodup
  mem_path : ∀ number, number ∈ s.path ↔ number ∈ joining s.tasks
  fits : Fits s.tasks s.nodes.length

/-- An upper bound for the steps that resolving an operand takes when `room` more triads can be
entered below each other. -/
def cost : Nat → Nat
  | 0 => 1
  | room + 1 => 2 * cost room + 2

/-- An upper bound for the steps that a list of tasks takes. -/
def potential : List (Task l) → Nat
  | [] => 0
  | .resolve .. :: rest => cost (l.triads.size - (joining rest).length) + potential rest
  | .join _ :: rest => potential rest + 1

theorem cost_pos (room : Nat) : 0 < cost room := by
  cases room <;> simp [cost]

theorem joining_mem {tasks : List (Task l)} {number : Nat} (h : number ∈ joining tasks) :
    number ∈ l.triads.toList.map Triad.number := by
  induction tasks with
  | nil => exact nomatch h
  | cons task rest ih =>
      cases task with
      | resolve => exact ih h
      | join place =>
          rcases List.mem_cons.1 h with rfl | h
          · have inListing := Array.mem_toList_iff.2 (Array.getElem_mem place.isLt)
            exact List.mem_map.2 ⟨_, inListing, rfl⟩
          · exact ih h

/-- Triads waiting to be joined are no more than the listing has. -/
theorem joining_length_le {tasks : List (Task l)} (distinct : (joining tasks).Nodup) :
    (joining tasks).length ≤ l.triads.size := by
  have := distinct.length_le_of_subset fun _ => joining_mem
  simpa using this

@[simp] theorem joining_tasksOf (place : Fin l.triads.size) (rest : List (Task l)) :
    joining (tasksOf place rest) = (l.triadAt place).number :: joining rest := rfl

theorem coherent_enter {s t : State l} {place : Fin l.triads.size}
    (distinct : (joining s.tasks).Nodup)
    (mem_path : ∀ number, number ∈ s.path ↔ number ∈ joining s.tasks)
    (fits : Fits s.tasks (s.nodes.length + 1)) (h : enter place s = .more t) : Coherent t := by
  simp only [enter] at h
  split at h
  · exact nomatch h
  · rename_i fresh
    cases h
    have absent : (l.triadAt place).number ∉ joining s.tasks := fun member =>
      fresh (NumberSet.contains_iff_mem.2 ((mem_path _).2 member))
    refine ⟨?_, fun number => ?_, ?_⟩
    · simpa using ⟨absent, distinct⟩
    · simp only [NumberSet.mem_insert_iff, mem_path, joining_tasksOf, List.mem_cons]
    · simpa [tasksOf, Fits] using fits

theorem potential_enter {s t : State l} {place : Fin l.triads.size}
    (distinct : (joining s.tasks).Nodup)
    (mem_path : ∀ number, number ∈ s.path ↔ number ∈ joining s.tasks)
    (fits : Fits s.tasks (s.nodes.length + 1)) (h : enter place s = .more t) :
    potential t.tasks < cost (l.triads.size - (joining s.tasks).length) + potential s.tasks := by
  have bound := joining_length_le (coherent_enter distinct mem_path fits h).nodup
  simp only [enter] at h
  split at h
  · exact nomatch h
  · cases h
    simp only [joining_tasksOf, List.length_cons] at bound
    obtain ⟨room, hroom⟩ : ∃ room, l.triads.size - (joining s.tasks).length = room + 1 :=
      ⟨l.triads.size - (joining s.tasks).length - 1, by omega⟩
    have below : l.triads.size - ((joining s.tasks).length + 1) = room := by omega
    simp only [tasksOf, potential, joining, List.length_cons, hroom, below, cost]
    omega

/-- A step from a coherent state leads to one. -/
theorem coherent_step {s t : State l} (hs : Coherent s) (h : step s = .more t) : Coherent t := by
  obtain ⟨builder, path, tasks, nodes⟩ := s
  obtain ⟨distinct, mem_path, fits⟩ := hs
  match tasks with
  | [] => simp only [step] at h; split at h <;> exact nomatch h
  | .resolve place side :: tasks =>
      simp only [step] at h
      split at h
      · split at h
        · exact coherent_enter (s := ⟨builder, path, tasks, nodes⟩) distinct mem_path fits h
        · exact nomatch h
      · cases h
        exact ⟨distinct, mem_path, fits⟩
  | .join place :: tasks =>
      simp only [step] at h
      split at h
      · cases h
        obtain ⟨absent, distinct⟩ := List.nodup_cons.1 distinct
        refine ⟨distinct, fun number => ?_, by simpa using fits.2⟩
        simp only [NumberSet.mem_erase_iff, mem_path, joining, List.mem_cons]
        constructor
        · rintro ⟨other, rfl | member⟩
          · exact absurd rfl other
          · exact member
        · exact fun member => ⟨fun same => absent (same ▸ member), .inr member⟩
      · exact nomatch h

theorem potential_step {s t : State l} (hs : Coherent s) (h : step s = .more t) :
    potential t.tasks < potential s.tasks := by
  obtain ⟨builder, path, tasks, nodes⟩ := s
  obtain ⟨distinct, mem_path, fits⟩ := hs
  match tasks with
  | [] => simp only [step] at h; split at h <;> exact nomatch h
  | .resolve place side :: tasks =>
      simp only [step] at h
      split at h
      · split at h
        · exact potential_enter (s := ⟨builder, path, tasks, nodes⟩) distinct mem_path fits h
        · exact nomatch h
      · cases h
        have := cost_pos (l.triads.size - (joining tasks).length)
        simp only [potential]
        omega
  | .join place :: tasks =>
      simp only [step] at h
      split at h
      · cases h
        simp [potential]
      · exact nomatch h

/-- A coherent state is never stuck. -/
theorem step_ne_stuck {s : State l} (hs : Coherent s) : step s ≠ .stuck := by
  obtain ⟨builder, path, tasks, nodes⟩ := s
  have fits := hs.fits
  match tasks with
  | [] =>
      obtain ⟨tree, rfl⟩ := List.length_eq_one_iff.1 fits
      exact nofun
  | .resolve place side :: tasks =>
      simp only [step, enter]
      repeat' split
      all_goals exact nofun
  | .join place :: tasks =>
      match nodes, fits.1 with
      | right :: left :: nodes, _ => exact nofun

/-- Takes steps until the tree is finished or a defect is found. -/
def run (s : State l) (hs : Coherent s) : EStateM.Result Defect Builder (Tree Node) :=
  match h : step s with
  | .more t => run t (coherent_step hs h)
  | .done tree builder => .ok tree builder
  | .failed defect builder => .error defect builder
  | .stuck => absurd h (step_ne_stuck hs)
termination_by potential s.tasks
decreasing_by exact potential_step hs h

/-- The state after entering a triad from nothing. -/
def start (place : Fin l.triads.size) (b : Builder) : State l :=
  let number := (l.triadAt place).number
  { builder := { b with visited := b.visited.insert number }
    path := (∅ : NumberSet).insert number
    tasks := tasksOf place []
    nodes := [] }

theorem coherent_start (place : Fin l.triads.size) (b : Builder) : Coherent (start place b) where
  nodup := by simp [start, joining]
  mem_path number := by simp [start, joining, eq_comm (a := number)]
  fits := by simp [start, tasksOf, Fits]

end Expansion

/-- The tree of the triad at a place of a listing. -/
def Listing.expand (l : Listing) (place : Fin l.triads.size) : Build (Tree Node) := fun b =>
  Expansion.run (Expansion.start place b) (Expansion.coherent_start place b)

end ThreeAddress
