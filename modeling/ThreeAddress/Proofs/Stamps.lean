import ThreeAddress.Proofs.Outline

/-!
# Building with other stamps

Every node that is made takes the next stamp, so the stamps in a tree depend on how many nodes were
made before. Nothing else does: when one builder has the stamps of another under a renaming that
takes the stamps still to be given out to each other, in order, each step of an expansion leads to
states that are related in the same way, and so do whole expansions and forests. A forest forgets
the leaves and the visited triads that it finds, so it is the forest that the listing yields from
nothing, with later stamps.
-/
namespace ThreeAddress

open Expansion

/-- The node with another stamp. -/
def Node.restamp (f : Nat → Nat) (node : Node) : Node := { node with stamp := f node.stamp }

/-- The same node made `n` stamps later. -/
def Node.shift (n : Nat) (node : Node) : Node := { node with stamp := node.stamp + n }

@[simp] theorem Node.label_shift (n : Nat) (node : Node) : (node.shift n).label = node.label := rfl

@[simp] theorem Node.shift_zero (node : Node) : node.shift 0 = node := rfl

@[simp] theorem Tree.map_label_map_shift (n : Nat) (t : Tree Node) :
    (t.map (Node.shift n)).map Node.label = t.map Node.label := by
  induction t with
  | empty => rfl
  | node node left right ihl ihr => simp [map, ihl, ihr]

@[simp] theorem Tree.map_shift_zero : Tree.map (Node.shift 0) = id := by
  funext t
  induction t with
  | empty => rfl
  | node node left right ihl ihr => simp [map, ihl, ihr]

/-! ## Builders -/

/-- The builder `c` is `b` with its stamps renamed, and has reported some events earlier. -/
structure Builder.Renamed (f : Nat → Nat) (earlier : Array Event) (b c : Builder) : Prop where
  leaves : ∀ slot : Nat, c.leaves[slot]? = b.leaves[slot]?.map (Node.restamp f)
  visited : c.visited = b.visited
  /-- The stamps still to be given out correspond in order. -/
  stamps : ∀ k, f (b.stamps + k) = c.stamps + k
  events : c.events = earlier ++ b.events

namespace Builder.Renamed

variable {f : Nat → Nat} {earlier : Array Event} {b c : Builder}

theorem report (h : b.Renamed f earlier c) (event : Event) :
    (b.report event).Renamed f earlier (c.report event) where
  leaves := h.leaves
  visited := h.visited
  stamps := h.stamps
  events := by simp [Builder.report, h.events]

theorem visit (h : b.Renamed f earlier c) (number : Nat) :
    { b with visited := b.visited.insert number }.Renamed f earlier
      { c with visited := c.visited.insert number } :=
  ⟨h.leaves, congrArg (·.insert number) h.visited, h.stamps, h.events⟩

theorem stamped (h : b.Renamed f earlier c) (label : String) :
    (c.stamped label).1 = (b.stamped label).1.restamp f ∧
      (b.stamped label).2.Renamed f earlier (c.stamped label).2 := by
  refine ⟨?_, h.leaves, h.visited, fun k => ?_, h.events⟩
  · have hnext : f b.stamps = c.stamps := h.stamps 0
    simp [Builder.stamped, Node.restamp, hnext]
  · have hlater := h.stamps (1 + k)
    simp only [Builder.stamped]
    rwa [← Nat.add_assoc, ← Nat.add_assoc] at hlater

/-- A leaf is found again in one builder exactly when it is in the other. -/
theorem leafAt (h : b.Renamed f earlier c) (slot : Nat) (operand : Operand) :
    (c.leafAt slot operand).1 = (b.leafAt slot operand).1.restamp f ∧
      (b.leafAt slot operand).2.Renamed f earlier (c.leafAt slot operand).2 := by
  unfold Builder.leafAt
  rw [h.leaves slot]
  cases b.leaves[slot]? with
  | some node => exact ⟨rfl, h.report _⟩
  | none =>
    obtain ⟨hnode, hbuilder⟩ := h.stamped operand.text
    refine ⟨hnode, fun other => ?_, hbuilder.visited, hbuilder.stamps, hbuilder.events⟩
    simp only [Option.map_none, hnode, Std.TreeMap.getElem?_insert]
    split
    · rfl
    · exact hbuilder.leaves other

/-- Nothing kept and nothing visited, and all stamps later by as many as were given out. -/
theorem fresh (c : Builder) :
    Builder.Renamed (· + c.stamps) c.events {} { c with leaves := ∅, visited := ∅ } where
  leaves := by simp
  visited := rfl
  stamps k := by rw [Nat.zero_add, Nat.add_comm]
  events := by simp

end Builder.Renamed

/-! ## Steps and runs -/

namespace Expansion

variable {l : Listing} {f : Nat → Nat} {earlier : Array Event}

/-- The state `t` is `s` with its stamps renamed. -/
structure State.Renamed (f : Nat → Nat) (earlier : Array Event) (s t : State l) : Prop where
  builder : s.builder.Renamed f earlier t.builder
  path : ∀ number, number ∈ t.path ↔ number ∈ s.path
  tasks : t.tasks = s.tasks
  nodes : t.nodes = s.nodes.map (Tree.map (Node.restamp f))

/-- The same outcome of a step with the stamps renamed. -/
inductive Progress.Renamed (f : Nat → Nat) (earlier : Array Event) :
    Progress l → Progress l → Prop where
  | more {s t : State l} (h : s.Renamed f earlier t) : Progress.Renamed f earlier (.more s) (.more t)
  | done {tree : Tree Node} {b c : Builder} (h : b.Renamed f earlier c) :
      Progress.Renamed f earlier (.done tree b) (.done (tree.map (Node.restamp f)) c)
  | failed (defect : Defect) {b c : Builder} (h : b.Renamed f earlier c) :
      Progress.Renamed f earlier (.failed defect b) (.failed defect c)
  | stuck : Progress.Renamed f earlier .stuck .stuck

theorem State.Renamed.enter {s t : State l} (h : s.Renamed f earlier t)
    (place : Fin l.triads.size) :
    (enter place s).Renamed f earlier (enter place t) := by
  by_cases hmem : (l.triadAt place).number ∈ s.path
  · rw [enter_of_mem hmem, enter_of_mem ((h.path _).mpr hmem)]
    exact .failed _ h.builder
  · rw [enter_of_not_mem hmem, enter_of_not_mem fun hmem' => hmem ((h.path _).mp hmem')]
    refine .more ⟨h.builder.visit _, fun number => ?_, congrArg (tasksOf place) h.tasks, h.nodes⟩
    simp only [entered, NumberSet.mem_insert_iff, h.path]

theorem State.Renamed.resolve {s t : State l} (h : s.Renamed f earlier t)
    {place : Fin l.triads.size} {side : Side} {tasks : List (Task l)}
    (htasks : s.tasks = .resolve place side :: tasks) :
    (step s).Renamed f earlier (step t) := by
  unfold step
  rw [h.tasks, htasks]
  simp only
  cases ((l.triadAt place).operand side).target? with
  | some number =>
    simp only
    cases l.indexOf? number with
    | some producer =>
      have hrest : ({ s with tasks } : State l).Renamed f earlier { t with tasks } :=
        ⟨h.builder, h.path, rfl, h.nodes⟩
      exact hrest.enter producer
    | none => exact .failed _ h.builder
  | none =>
    obtain ⟨hnode, hbuilder⟩ := h.builder.leafAt (slot place side) ((l.triadAt place).operand side)
    refine .more ⟨hbuilder, h.path, rfl, ?_⟩
    simp only [hnode, h.nodes, List.map_cons, Tree.leaf, Tree.map]

theorem State.Renamed.join {s t : State l} (h : s.Renamed f earlier t) {place : Fin l.triads.size}
    {tasks : List (Task l)} (htasks : s.tasks = .join place :: tasks) :
    (step s).Renamed f earlier (step t) := by
  unfold step
  rw [h.tasks, htasks, h.nodes]
  cases s.nodes with
  | nil => exact .stuck
  | cons right nodes =>
    cases nodes with
    | nil => exact .stuck
    | cons left nodes =>
      obtain ⟨hnode, hbuilder⟩ := h.builder.stamped (l.triadAt place).label
      refine .more ⟨hbuilder, fun number => ?_, rfl, ?_⟩
      · simp only [NumberSet.mem_erase_iff, h.path]
      · show Tree.node (t.builder.stamped (l.triadAt place).label).1 _ _ :: _ = _
        rw [hnode]
        rfl

/-- A step does the same with renamed stamps. -/
theorem State.Renamed.step {s t : State l} (h : s.Renamed f earlier t) :
    (step s).Renamed f earlier (step t) := by
  cases htasks : s.tasks with
  | nil =>
    unfold Expansion.step
    rw [h.tasks, htasks, h.nodes]
    cases s.nodes with
    | nil => exact .stuck
    | cons tree nodes =>
      cases nodes with
      | nil => exact .done h.builder
      | cons => exact .stuck
  | cons task tasks =>
    cases task with
    | resolve place side => exact h.resolve htasks
    | join place => exact h.join htasks

/-- Where steps lead, they lead with renamed stamps. -/
theorem Leads.renamed {p q p' : Progress l} (h : Leads p q) (hp : p.Renamed f earlier p') :
    ∃ q', q.Renamed f earlier q' ∧ Leads p' q' := by
  induction h generalizing p' with
  | refl p => exact ⟨p', hp, .refl p'⟩
  | step _ ih =>
    cases hp with
    | more hstate =>
      obtain ⟨q', hq, hleads⟩ := ih hstate.step
      exact ⟨q', hq, .step hleads⟩

/-- The steps lead to where a run ends. -/
theorem leads_run {s : State l} (hs : Coherent s) :
    (∀ tree b, run s hs = .ok tree b → Leads (.more s) (.done tree b)) ∧
      ∀ defect b, run s hs = .error defect b → Leads (.more s) (.failed defect b) := by
  fun_induction run s hs with
  | case1 s hs t hstep ih =>
    rw [← hstep] at ih
    exact ⟨fun tree b h => .step (ih.1 tree b h), fun defect b h => .step (ih.2 defect b h)⟩
  | case2 s hs tree b hstep =>
    constructor
    · intro _ _ h
      cases h
      exact .step (hstep ▸ .refl _)
    · intro _ _ h
      cases h
  | case3 s hs defect b hstep =>
    constructor
    · intro _ _ h
      cases h
    · intro _ _ h
      cases h
      exact .step (hstep ▸ .refl _)

end Expansion

/-- What a build ends with, without the builder of a failed one. -/
def outcome : EStateM.Result Defect Builder α → Except Defect (α × Builder)
  | .ok a b => .ok (a, b)
  | .error defect _ => .error defect

theorem outcome_bind (x : Build α) (f : α → Build β) (b : Builder) :
    outcome ((x >>= f) b) = outcome (x b) >>= fun r => outcome (f r.1 r.2) := by
  have hrun : (x >>= f) b = EStateM.bind x f b := rfl
  rw [hrun, EStateM.bind]
  cases x b <;> rfl

section
variable {l : Listing} {f : Nat → Nat} {earlier : Array Event}

/-- A run does the same with renamed stamps. -/
theorem Expansion.run_renamed {s t : State l} (hs : Coherent s) (ht : Coherent t)
    (h : s.Renamed f earlier t) (c : Builder) :
    Yields (fun _ => run t ht) c (outcome (run s hs)) fun r tree c' =>
      tree = r.1.map (Node.restamp f) ∧ r.2.Renamed f earlier c' := by
  cases hrun : run s hs with
  | ok tree b =>
    obtain ⟨q, hq, hleads⟩ := ((leads_run hs).1 tree b hrun).renamed (.more h)
    cases hq with
    | done hbuilder =>
      exact ⟨_, _, (run_of_leads hleads ht rfl).1 _ _ rfl, rfl, hbuilder⟩
  | error defect b =>
    obtain ⟨q, hq, hleads⟩ := ((leads_run hs).2 defect b hrun).renamed (.more h)
    cases hq with
    | failed =>
      exact ⟨_, (run_of_leads hleads ht rfl).2 _ _ rfl⟩

/-! ## Expansions and forests -/

theorem expand_renamed (place : Fin l.triads.size) {b c : Builder} (h : b.Renamed f earlier c) :
    Yields (l.expand place) c (outcome (l.expand place b)) fun r tree c' =>
      tree = r.1.map (Node.restamp f) ∧ r.2.Renamed f earlier c' := by
  have hstart : (start place b).Renamed f earlier (start place c) :=
    ⟨h.visit _, fun _ => Iff.rfl, rfl, rfl⟩
  exact run_renamed (coherent_start place b) (coherent_start place c) hstart c

/-- The trees of the triads at some places, one after the other. -/
def expandAll (places : List (Fin l.triads.size)) : Build (List (Tree Node)) :=
  places.mapM fun place => do
    modify (·.report (.topLevel (l.triadAt place)))
    l.expand place

theorem expandAll_renamed (places : List (Fin l.triads.size)) {b c : Builder}
    (h : b.Renamed f earlier c) :
    Yields (expandAll places) c (outcome (expandAll places b)) fun r trees c' =>
      trees = r.1.map (Tree.map (Node.restamp f)) ∧ r.2.Renamed f earlier c' := by
  induction places generalizing b c with
  | nil => exact .pure ⟨rfl, h⟩
  | cons place places ih =>
    simp only [expandAll, List.mapM_cons, outcome_bind]
    have hreport := h.report (.topLevel (l.triadAt place))
    refine Yields.bind (expand_renamed place hreport) fun r tree c' hr => ?_
    refine (ih hr.2).bind fun rs trees c'' hrs => .pure ⟨?_, hrs.2⟩
    rw [List.map_cons, hr.1, hrs.1]

/-- Gives the trees back, unless a triad was missed. -/
def unlessMissed (l : Listing) (trees : List (Tree Node)) : Build (List (Tree Node)) := do
  match l.unvisited? (← get).visited with
  | some t => throw (.unreachable t.number)
  | none => return trees

theorem unlessMissed_apply (trees : List (Tree Node)) (b : Builder) : unlessMissed l trees b =
    (match l.unvisited? b.visited with
      | some t => throw (.unreachable t.number)
      | none => return trees : Build (List (Tree Node))) b := rfl

/-- A forest starts from no leaves and nothing visited. -/
theorem forest_apply (l : Listing) (b : Builder) : l.forest b =
    (expandAll l.topLevel >>= unlessMissed l) { b with leaves := ∅, visited := ∅ } := rfl

/-- A forest is the one from nothing with later stamps, whatever was built before. -/
theorem forest_shifted (l : Listing) (c : Builder) :
    Yields l.forest c (outcome (l.forest {})) fun r trees c' =>
      trees = r.1.map (Tree.map (Node.shift c.stamps)) ∧ c'.stamps = r.2.stamps + c.stamps := by
  have hforest : Yields (expandAll l.topLevel >>= unlessMissed l)
      { c with leaves := ∅, visited := ∅ } (outcome (l.forest {})) fun r trees c' =>
        trees = r.1.map (Tree.map (Node.shift c.stamps)) ∧ c'.stamps = r.2.stamps + c.stamps := by
    rw [forest_apply, outcome_bind]
    refine (expandAll_renamed l.topLevel (.fresh c)).bind fun r trees c' hr => ?_
    rw [unlessMissed_apply]
    unfold Yields
    rw [unlessMissed_apply, hr.2.visited]
    cases l.unvisited? r.2.visited with
    | some t => exact ⟨c', rfl⟩
    | none => exact ⟨trees, c', rfl, hr.1, (hr.2.stamps 0).symm⟩
  exact hforest

end

end ThreeAddress
