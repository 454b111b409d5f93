import Mathlib.Control.Monad.Basic
import Mathlib.Logic.Relation
import ThreeAddress.Proofs.Stamps
import ThreeAddress.Proofs.Walks

/-!
# Expansion against recursion

Expanding a triad with a stack of tasks gives the tree, or the defect, of the recursion that carries
the unfinished triads along. This holds from every builder that a listing can find: a fresh one, or
one that earlier expansions have left. A tree that is finished has two children under every triad,
nothing is unfinished after it, and the visited triads are those of before and those entered on the
way. A triad is entered on the way when it is unfinished at some step. `Steps` says once what a step
does, and the last statement follows from what each step adds.
-/
namespace ThreeAddress

open Expansion

/-- The builder is one that expansions of triads of the listing start from: fresh, or left by an
earlier expansion. -/
inductive Builder.Serves (l : Listing) : Builder → Prop where
  | fresh {b : Builder} (leaves : b.leaves = ∅) (visited : b.visited = ∅) : Serves l b
  | report {b : Builder} (earlier : Serves l b) (event : Event) : Serves l (b.report event)
  | expand {b b' : Builder} {place : Fin l.triads.size} {tree : Tree Node}
      (earlier : Serves l b) (built : l.expand place b = .ok tree b') : Serves l b'

theorem Builder.Serves.labelled {l : Listing} {b : Builder} (h : b.Serves l) : Labelled l b := by
  induction h with
  | fresh leaves => exact labelled_empty leaves
  | report _ _ ih => exact ih
  | expand _ built ih =>
    obtain ⟨t, -, hmakes, -⟩ := (expand_makes _ _).exists_of_ok built
    exact (hmakes.built ih).labelled

@[simp] theorem Builder.visited_leafAt (b : Builder) (slot : Nat) (operand : Operand) :
    (b.leafAt slot operand).2.visited = b.visited := by
  unfold leafAt
  split <;> rfl

namespace Expansion

variable {l : Listing}

/-! ## Two children -/

theorem Makes.branching {b b' : Builder} {t : Tree (Origin l)} {tree : Tree Node}
    (h : Makes l b t tree b') : tree.Branching := by
  induction h with
  | leaf => exact .leaf _
  | triad _ _ ihl ihr => exact .node _ ihl ihr

theorem Makes.full {b b' : Builder} {t : Tree (Origin l)} {tree : Tree Node}
    (h : Makes l b t tree b') : tree.isEmpty = false ∧ tree.Full :=
  h.branching.full

/-! ## What a step does -/

/-- A step to another state: it enters the triad of an operand, makes the leaf of an operand, or
joins two trees under their triad. -/
inductive Steps : State l → State l → Prop where
  | enter {s : State l} {place producer : Fin l.triads.size} {side : Side} {number : Nat}
      {tasks : List (Task l)} (next : s.tasks = .resolve place side :: tasks)
      (target : ((l.triadAt place).operand side).target? = some number)
      (found : l.indexOf? number = some producer)
      (fresh : (l.triadAt producer).number ∉ s.path) :
      Steps s (entered producer { s with tasks })
  | leaf {s : State l} {place : Fin l.triads.size} {side : Side} {tasks : List (Task l)}
      (next : s.tasks = .resolve place side :: tasks)
      (none : ((l.triadAt place).operand side).target? = none) :
      Steps s
        { s with
          builder := (s.builder.leafAt (slot place side) ((l.triadAt place).operand side)).2
          tasks
          nodes := .leaf (s.builder.leafAt (slot place side) ((l.triadAt place).operand side)).1
            :: s.nodes }
  | join {s : State l} {place : Fin l.triads.size} {tasks : List (Task l)}
      {left right : Tree Node} {nodes : List (Tree Node)} (next : s.tasks = .join place :: tasks)
      (top : s.nodes = right :: left :: nodes) :
      Steps s
        { builder := (s.builder.stamped (l.triadAt place).label).2
          path := s.path.erase (l.triadAt place).number
          tasks
          nodes := .node (s.builder.stamped (l.triadAt place).label).1 left right :: nodes }

theorem steps_of_step {s t : State l} (h : step s = .more t) : Steps s t := by
  unfold step at h
  split at h
  · split at h <;> cases h
  · rename_i place side tasks hnext
    simp only at h
    split at h
    · rename_i number htarget
      split at h
      · rename_i producer hfound
        by_cases hmem : (l.triadAt producer).number ∈ s.path
        · rw [enter_of_mem (s := { s with tasks }) hmem] at h
          cases h
        · rw [enter_of_not_mem (s := { s with tasks }) hmem] at h
          cases h
          exact .enter hnext htarget hfound hmem
      · cases h
    · rename_i hnone
      cases h
      exact .leaf hnext hnone
  · rename_i place tasks hnext
    split at h
    · rename_i right left nodes hnodes
      cases h
      exact .join hnext hnodes
    · cases h

/-- A step forgets no visited triad, a triad is visited when it is put on the path, and no triad is
visited otherwise. -/
theorem Steps.visited {s t : State l} (h : Steps s t) (number : Nat) :
    (number ∈ s.builder.visited → number ∈ t.builder.visited) ∧
      (number ∈ t.path → number ∈ s.path ∨ number ∈ t.builder.visited) ∧
      (number ∈ t.builder.visited → number ∈ s.builder.visited ∨ number ∈ t.path) := by
  cases h with
  | enter next target found fresh =>
    simp only [entered, NumberSet.mem_insert_iff]
    tauto
  | leaf next none =>
    simp only [Builder.visited_leafAt]
    tauto
  | join next top =>
    simp only [Builder.stamped, NumberSet.mem_erase_iff]
    tauto

/-! ## What a run has entered -/

/-- Steps from one state to another. -/
abbrev Reaches : State l → State l → Prop :=
  Relation.ReflTransGen fun s t => step s = .more t

theorem leads_iff_reaches {s t : State l} : Leads (.more s) (.more t) ↔ Reaches s t := by
  constructor
  · intro h
    generalize hp : Progress.more s = p at h
    generalize hq : Progress.more t = q at h
    induction h generalizing s with
    | refl =>
      cases hp.trans hq.symm
      exact .refl
    | @step s' p h ih =>
      cases hp
      cases hstep : step s' with
      | more u => exact .head hstep (ih hstep.symm hq)
      | done | failed | stuck =>
        rw [hstep, ← hq] at h
        cases h
  · intro h
    induction h using Relation.ReflTransGen.head_induction_on with
    | refl => exact .refl _
    | head hstep _ ih => exact .step (hstep ▸ ih)

/-- Expanding the triad at a place enters the triad with a number: at some step it is unfinished. -/
def EntersNumber (place : Fin l.triads.size) (b : Builder) (number : Nat) : Prop :=
  ∃ s, Leads (enter place ⟨b, ∅, [], []⟩) (.more s) ∧ number ∈ s.path

theorem enter_empty (place : Fin l.triads.size) (b : Builder) :
    enter place ⟨b, ∅, [], []⟩ = .more (start place b) :=
  enter_of_not_mem (by simp)

theorem visited_of_reaches {s t : State l} (h : Reaches s t) {number : Nat}
    (hmem : number ∈ s.builder.visited) : number ∈ t.builder.visited := by
  induction h with
  | refl => exact hmem
  | tail _ hstep ih => exact ((steps_of_step hstep).visited number).1 ih

/-- What is unfinished has been visited. -/
theorem visited_of_mem_path {place : Fin l.triads.size} {b : Builder} {s : State l}
    (h : Reaches (start place b) s) {number : Nat} (hmem : number ∈ s.path) :
    number ∈ s.builder.visited := by
  induction h with
  | refl =>
    simp only [start, NumberSet.mem_insert_iff] at hmem ⊢
    exact hmem.imp_right fun hempty => absurd hempty (by simp)
  | tail _ hstep ih =>
    have hsteps := (steps_of_step hstep).visited number
    rcases hsteps.2.1 hmem with hpath | hvisited
    · exact hsteps.1 (ih hpath)
    · exact hvisited

/-- The triads visited at some step were visited before or have been entered. -/
theorem mem_visited_of_reaches {place : Fin l.triads.size} {b : Builder} {s : State l}
    (h : Reaches (start place b) s) {number : Nat} (hmem : number ∈ s.builder.visited) :
    number ∈ b.visited ∨ EntersNumber place b number := by
  have hentered : ∀ {t : State l}, Reaches (start place b) t → number ∈ t.path →
      EntersNumber place b number := by
    intro t ht hpath
    exact ⟨t, by rwa [enter_empty, leads_iff_reaches], hpath⟩
  induction h with
  | refl =>
    simp only [start, NumberSet.mem_insert_iff] at hmem
    rcases hmem with hnumber | hbefore
    · right
      exact hentered .refl (NumberSet.mem_insert_iff.mpr (.inl hnumber))
    · exact .inl hbefore
  | tail hreaches hstep ih =>
    rcases ((steps_of_step hstep).visited number).2.2 hmem with hbefore | hpath
    · exact ih hbefore
    · exact .inr (hentered (hreaches.tail hstep) hpath)

/-- A finished expansion has visited what was visited before and what it has entered. -/
theorem Finishes.visited {place : Fin l.triads.size} {b b' : Builder} {tree : Tree Node}
    (h : Finishes place b tree b') (number : Nat) :
    number ∈ b'.visited ↔ number ∈ b.visited ∨ EntersNumber place b number := by
  obtain ⟨path, hleads, -⟩ := h
  rw [enter_empty, leads_iff_reaches] at hleads
  constructor
  · exact mem_visited_of_reaches hleads
  · rintro (hbefore | ⟨s, hs, hpath⟩)
    · have hstart : number ∈ (start place b).builder.visited :=
        NumberSet.mem_insert_iff.mpr (.inr hbefore)
      exact visited_of_reaches hleads hstart
    · rw [enter_empty, leads_iff_reaches] at hs
      have hvisited := visited_of_mem_path hs hpath
      -- Steps are determined, and the finished state is the last one.
      have hunique : Relator.RightUnique fun s t : State l => step s = .more t := by
        intro s t u ht hu
        exact Progress.more.inj (ht.symm.trans hu)
      rcases Relation.ReflTransGen.total_of_right_unique hunique hs hleads with hlater | hearlier
      · exact visited_of_reaches hlater hvisited
      · rcases hearlier.cases_head with hsame | ⟨u, hstep, -⟩
        · subst hsame
          exact hvisited
        · cases hstep

end Expansion

/-- Expanding a triad gives the tree of the recursion, as labels in their shape, or its defect. A
tree that is finished has two children under every branch, leaves nothing unfinished, and adds to
the visited triads those entered on the way, which are the triads in it. -/
theorem expand_agrees_with_recursion {l : Listing} {b : Builder} (hb : b.Serves l)
    (place : Fin l.triads.size) :
    ((outcome (l.expand place b)).map fun r => r.1.map Node.label) =
      (Expansion.unfold l [] place).map (Tree.map Origin.label) ∧
    ∀ tree b', l.expand place b = .ok tree b' →
      tree.Full ∧ Finishes place b tree b' ∧
      (∀ number, number ∈ b'.visited ↔ number ∈ b.visited ∨ EntersNumber place b number) ∧
      ∃ t, Expansion.unfold l [] place = .ok t ∧
        ∀ number, number ∈ b'.visited ↔ number ∈ b.visited ∨ number ∈ numbers t := by
  have hmakes := expand_makes place b
  constructor
  · cases hr : Expansion.unfold l [] place with
    | error defect =>
      rw [hr] at hmakes
      obtain ⟨b', hfailed⟩ := hmakes
      rw [hfailed]
      rfl
    | ok t =>
      rw [hr] at hmakes
      obtain ⟨tree, b', hdone, hmakes, -⟩ := hmakes
      rw [hdone]
      exact congrArg Except.ok (hmakes.built hb.labelled).labels
  · intro tree b' hdone
    obtain ⟨t, ht, hmakes, hfinishes⟩ := hmakes.exists_of_ok hdone
    exact ⟨hmakes.full.2, hfinishes, hfinishes.visited, t, ht,
      (hmakes.built hb.labelled).visited⟩

/-- A sum that takes a product twice is expanded after the product, whose leaves are met again. In
the other listing a cycle is met before a temporary that names no triad. -/
theorem expand_agrees_with_recursion_twice :
    let shared : Listing := ⟨#[
      ⟨1, .multiply, .identifier "c", .identifier "d", some 1⟩,
      ⟨2, .add, .temporary 1, .temporary 1, some 2⟩]⟩
    let sum : Fin shared.triads.size := ⟨1, by decide⟩
    let product : Tree String := .node "1: * (c d)" (.leaf "c") (.leaf "d")
    let cyclic : Listing := ⟨#[
      ⟨1, .multiply, .temporary 2, .temporary 9, some 1⟩,
      ⟨2, .add, .identifier "b", .temporary 1, some 2⟩]⟩
    (∃ b tree b', b.Serves shared ∧ shared.expand sum b = .ok tree b' ∧
      tree.map Node.label = .node "2: + (^1 ^1)" product product ∧
      tree.Full ∧ Finishes sum b tree b' ∧
      ∀ number, number ∈ b'.visited ↔ number ∈ b.visited ∨ EntersNumber sum b number) ∧
    ∃ b', cyclic.expand ⟨0, by decide⟩ {} = .error (.cyclic 1) b' := by
  intro shared sum product cyclic
  have hfresh : ∀ l, Builder.Serves l {} := fun l => .fresh rfl rfl
  constructor
  · have hproduct : (Expansion.unfold shared [] ⟨0, by decide⟩).map (Tree.map Origin.label) =
        .ok product := by decide +kernel
    have hsum : (Expansion.unfold shared [] sum).map (Tree.map Origin.label) =
        .ok (.node "2: + (^1 ^1)" product product) := by decide +kernel
    have hfirst := (expand_agrees_with_recursion (hfresh shared) ⟨0, by decide⟩).1
    rw [hproduct] at hfirst
    cases hexpand : shared.expand ⟨0, by decide⟩ {} with
    | error defect b =>
      rw [hexpand] at hfirst
      cases hfirst
    | ok tree b =>
      have hb : b.Serves shared := .expand (hfresh shared) hexpand
      obtain ⟨hsame, hfinished⟩ := expand_agrees_with_recursion hb sum
      rw [hsum] at hsame
      cases hagain : shared.expand sum b with
      | error defect b' =>
        rw [hagain] at hsame
        cases hsame
      | ok tree b' =>
        rw [hagain] at hsame
        obtain ⟨hfull, hfinishes, hvisited, -⟩ := hfinished tree b' hagain
        exact ⟨b, tree, b', hb, hagain, Except.ok.inj hsame, hfull, hfinishes, hvisited⟩
  · have hcyclic : (Expansion.unfold cyclic [] ⟨0, by decide⟩).map (Tree.map Origin.label) =
        .error (.cyclic 1) := by decide +kernel
    have hsame := (expand_agrees_with_recursion (hfresh cyclic) ⟨0, by decide⟩).1
    rw [hcyclic] at hsame
    cases hexpand : cyclic.expand ⟨0, by decide⟩ {} with
    | error defect b' =>
      rw [hexpand] at hsame
      exact ⟨b', congrArg (EStateM.Result.error · b') (Except.error.inj hsame)⟩
    | ok tree b' =>
      rw [hexpand] at hsame
      cases hsame

end ThreeAddress
