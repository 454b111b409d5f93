import Mathlib.Data.List.GetD
import Mathlib.Order.Monotone.Basic
import ThreeAddress.Proofs.LeafCache

/-!
# Joining trees as they come

The tree of listings is built in two parts: first the trees of all roots are made, then they are
joined, and each root is expanded from no unfinished triads. The same tree comes of one loop that
joins each tree to the tree so far as soon as it is made, and that keeps the unfinished triads from
one root to the next. `Grows` is this loop, and `grows_as_built` says that it ends in exactly one
way: with the same events and the same defect, or with the same tree.

Joints that are made in between take stamps that nodes of later roots would have had. So the trees
are the same up to a renaming of stamps that keeps different nodes apart. `Follows` says how far the
renaming has come after some roots.
-/
namespace ThreeAddress

open Expansion

/-! ## The loop -/

/-- What is kept from one root to the next. -/
structure Growth where
  builder : Builder := {}
  /-- Numbers of the triads entered and not yet joined. -/
  path : NumberSet := ∅
  /-- The tree so far. -/
  tree? : Option (Tree Node) := none

namespace Growth

/-- Starts on another listing. -/
def restart (g : Growth) : Growth :=
  { g with builder := { g.builder with leaves := ∅, visited := ∅ }, path := ∅ }

/-- Starts on another root. -/
def enter {l : Listing} (g : Growth) (place : Fin l.triads.size) : Progress l :=
  Expansion.enter place ⟨g.builder.report (.topLevel (l.triadAt place)), g.path, [], []⟩

/-- Joins the tree of a root to the tree so far. -/
def join (g : Growth) (b : Builder) (path : NumberSet) (next : Tree Node) : Growth :=
  match g.tree? with
  | none => ⟨b, path, some next⟩
  | some tree =>
      let (node, b) := b.stamped jointLabel
      ⟨b, path, some (.node node tree next)⟩

end Growth

/-- The roots of a listing are expanded in turn. -/
inductive GrowsBy (l : Listing) :
    List (Fin l.triads.size) → Growth → Except (Defect × Builder) Growth → Prop where
  | done (g : Growth) : GrowsBy l [] g (.ok g)
  | failed {place : Fin l.triads.size} {places : List (Fin l.triads.size)} {g : Growth}
      {defect : Defect} {b : Builder} (fails : Leads (g.enter place) (.failed defect b)) :
      GrowsBy l (place :: places) g (.error (defect, b))
  | root {place : Fin l.triads.size} {places : List (Fin l.triads.size)} {g : Growth}
      {b : Builder} {path : NumberSet} {tree : Tree Node} {o : Except (Defect × Builder) Growth}
      (finishes : Leads (g.enter place) (.more ⟨b, path, [], [tree]⟩))
      (others : GrowsBy l places (g.join b path tree) o) : GrowsBy l (place :: places) g o

/-- The listings are taken in turn, and after each of them every triad has to have been met. -/
inductive Grows : List Listing → Growth → Except (Defect × Builder) Growth → Prop where
  | done (g : Growth) : Grows [] g (.ok g)
  | failed {l : Listing} {listings : List Listing} {g : Growth} {e : Defect × Builder}
      (fails : GrowsBy l l.topLevel g.restart (.error e)) : Grows (l :: listings) g (.error e)
  | missed {l : Listing} {listings : List Listing} {g g' : Growth} {t : Triad}
      (roots : GrowsBy l l.topLevel g.restart (.ok g'))
      (missed : l.unvisited? g'.builder.visited = some t) :
      Grows (l :: listings) g (.error (.unreachable t.number, g'.builder))
  | listing {l : Listing} {listings : List Listing} {g g' : Growth}
      {o : Except (Defect × Builder) Growth} (roots : GrowsBy l l.topLevel g.restart (.ok g'))
      (met : l.unvisited? g'.builder.visited = none) (others : Grows listings g' o) :
      Grows (l :: listings) g o

/-! ## The loop ends in one way -/

/-- Of two things that steps lead to, one leads to the other. -/
theorem Expansion.Leads.total {l : Listing} {p q q' : Progress l} (h : Leads p q)
    (h' : Leads p q') : Leads q q' ∨ Leads q' q := by
  induction h with
  | refl => exact .inl h'
  | step h ih =>
    cases h' with
    | refl => exact .inr (.step h)
    | step h' => exact ih h'

/-- Nothing but the finished tree follows once all tasks are done. -/
theorem Expansion.Leads.eq_of_finished {l : Listing} {b : Builder} {path : NumberSet}
    {tree : Tree Node} {q : Progress l} (h : Leads (.more ⟨b, path, [], [tree]⟩) q) :
    q = .more ⟨b, path, [], [tree]⟩ ∨ q = .done tree b := by
  cases h with
  | refl => exact .inl rfl
  | step h =>
    cases h with
    | refl => exact .inr rfl

theorem Expansion.Leads.not_finished_of_failed {l : Listing} {p : Progress l} {defect : Defect}
    {b b' : Builder} {path : NumberSet} {tree : Tree Node} (h : Leads p (.failed defect b)) :
    ¬Leads p (.more ⟨b', path, [], [tree]⟩) := by
  intro h'
  obtain hafter | hafter := h.total h'
  · cases hafter
  · obtain heq | heq := hafter.eq_of_finished <;> cases heq

theorem GrowsBy.unique {l : Listing} {places : List (Fin l.triads.size)} {g : Growth}
    {o o' : Except (Defect × Builder) Growth} (h : GrowsBy l places g o)
    (h' : GrowsBy l places g o') : o' = o := by
  induction h with
  | done => cases h' with
    | done => rfl
  | failed fails =>
    cases h' with
    | failed fails' =>
      obtain hafter | hafter := fails.total fails' <;> cases hafter <;> rfl
    | root finishes => exact absurd finishes fails.not_finished_of_failed
  | root finishes others ih =>
    cases h' with
    | failed fails => exact absurd finishes fails.not_finished_of_failed
    | root finishes' others' =>
      obtain hafter | hafter := finishes.total finishes'
      all_goals
        obtain heq | heq := hafter.eq_of_finished
        · cases heq
          exact ih others'
        · cases heq

theorem Grows.unique {listings : List Listing} {g : Growth}
    {o o' : Except (Defect × Builder) Growth} (h : Grows listings g o)
    (h' : Grows listings g o') : o' = o := by
  induction h with
  | done => cases h' with
    | done => rfl
  | failed fails =>
    cases h' with
    | failed fails' => exact fails.unique fails'
    | missed roots' | listing roots' => cases fails.unique roots'
  | missed roots missed =>
    cases h' with
    | failed fails' => cases roots.unique fails'
    | missed roots' missed' =>
      cases roots.unique roots'
      cases missed.symm.trans missed'
      rfl
    | listing roots' met' =>
      cases roots.unique roots'
      cases missed.symm.trans met'
  | listing roots met others ih =>
    cases h' with
    | failed fails' => cases roots.unique fails'
    | missed roots' missed' =>
      cases roots.unique roots'
      cases met.symm.trans missed'
    | listing roots' met' others' =>
      cases roots.unique roots'
      exact ih others'

/-! ## Values of trees and combs -/

namespace Tree
variable {α β : Type}

theorem map_congr {f g : α → β} {t : Tree α} (h : ∀ value ∈ t.values, f value = g value) :
    t.map f = t.map g := by
  induction t with
  | empty => rfl
  | node value left right ihl ihr =>
    simp only [values, List.forall_mem_cons, List.forall_mem_append] at h
    rw [map, map, h.1, ihl h.2.1, ihr h.2.2]

theorem values_of_isEmpty {t : Tree α} (h : t.isEmpty = true) : t.values = [] := by
  cases t with
  | empty => rfl
  | node value left right => cases h

theorem mem_leafValues_or_branchValues {value : α} {t : Tree α} (h : value ∈ t.values) :
    value ∈ t.leafValues ∨ value ∈ t.branchValues := by
  induction t with
  | empty => cases h
  | node root left right ihl ihr =>
    simp only [values, List.mem_cons, List.mem_append] at h
    simp only [leafValues, branchValues]
    split
    · rename_i hleaf
      -- Both children are empty, so the value is that of the node itself.
      obtain ⟨hl, hr⟩ := Bool.and_eq_true_iff.mp hleaf
      rw [values_of_isEmpty hl, values_of_isEmpty hr] at h
      simpa using h
    · simp only [List.mem_cons, List.mem_append]
      tauto

/-- One more tree is joined above all others. -/
theorem combWith_append_singleton (value : Nat → α) (n : Nat) {trees : List (Tree α)}
    (h : trees ≠ []) (next : Tree α) :
    combWith value n (trees ++ [next]) =
      node (value (n + (trees.length - 1))) (combWith value n trees) next := by
  obtain ⟨tree, rest, rfl⟩ := List.exists_cons_of_ne_nil h
  simp only [List.cons_append, combWith, List.length_cons, Nat.add_sub_cancel]
  clear h
  induction rest generalizing n tree with
  | nil => rfl
  | cons other rest ih =>
    rw [List.cons_append, joinWith, joinWith, ih, List.length_cons, Nat.add_right_comm]
    rfl

/-- The nodes of a comb are those of the trees and those above them. -/
theorem mem_values_combWith {value : Nat → α} {n : Nat} {trees : List (Tree α)} {a : α}
    (h : a ∈ (combWith value n trees).values) :
    (∃ t ∈ trees, a ∈ t.values) ∨ ∃ k < trees.length - 1, a = value (n + k) := by
  induction trees using List.reverseRecOn with
  | nil => cases h
  | append_singleton trees next ih =>
    by_cases hnil : trees = []
    · subst hnil
      exact .inl ⟨next, List.mem_singleton_self _, h⟩
    · have hpos := List.length_pos_iff.mpr hnil
      rw [combWith_append_singleton value n hnil, values, List.mem_cons, List.mem_append] at h
      obtain h | h | h := h
      · refine .inr ⟨trees.length - 1, ?_, h⟩
        simp only [List.length_append, List.length_singleton]
        omega
      · obtain ⟨t, ht, hmem⟩ | ⟨k, hk, hvalue⟩ := ih h
        · exact .inl ⟨t, List.mem_append_left _ ht, hmem⟩
        · refine .inr ⟨k, ?_, hvalue⟩
          simp only [List.length_append, List.length_singleton]
          omega
      · exact .inl ⟨next, List.mem_append_right _ (List.mem_singleton_self _), h⟩

end Tree

/-! ## The renaming of stamps -/

/-- The renaming that passes over one more stamp from `n` on. -/
def passOver (f : Nat → Nat) (n stamp : Nat) : Nat := if stamp < n then f stamp else f stamp + 1

theorem passOver_of_lt (f : Nat → Nat) {n stamp : Nat} (h : stamp < n) :
    passOver f n stamp = f stamp := if_pos h

theorem passOver_of_le (f : Nat → Nat) {n stamp : Nat} (h : n ≤ stamp) :
    passOver f n stamp = f stamp + 1 := if_neg (Nat.not_lt_of_le h)

theorem strictMono_passOver {f : Nat → Nat} (h : StrictMono f) (n : Nat) :
    StrictMono (passOver f n) := by
  intro x y hxy
  have hf := h hxy
  unfold passOver
  split <;> split <;> omega

/-- No stamp is taken to the one that is passed over. -/
theorem passOver_ne {f : Nat → Nat} (h : StrictMono f) (n stamp : Nat) :
    passOver f n stamp ≠ f n := by
  obtain hstamp | hstamp := Nat.lt_or_ge stamp n
  · rw [passOver_of_lt f hstamp]
    exact (h hstamp).ne
  · rw [passOver_of_le f hstamp]
    exact (Nat.lt_succ_of_le (h.monotone hstamp)).ne'

/-- What was passed over before still is. -/
theorem passOver_ne_of_lt {f : Nat → Nat} (h : StrictMono f) {n passed : Nat} (hlt : passed < f n)
    (hne : ∀ stamp, f stamp ≠ passed) (stamp : Nat) : passOver f n stamp ≠ passed := by
  obtain hstamp | hstamp := Nat.lt_or_ge stamp n
  · rw [passOver_of_lt f hstamp]
    exact hne stamp
  · rw [passOver_of_le f hstamp]
    exact (hlt.trans (Nat.lt_succ_of_le (h.monotone hstamp))).ne'

/-- Trees that were made before `n` keep their stamps. -/
theorem map_restamp_passOver {f : Nat → Nat} {n : Nat} {trees : List (Tree Node)}
    (h : ∀ t ∈ trees, ∀ node ∈ t.values, node.stamp < n) :
    trees.map (Tree.map (Node.restamp (passOver f n))) = trees.map (Tree.map (Node.restamp f)) := by
  refine List.map_congr_left fun t ht => Tree.map_congr fun node hnode => ?_
  rw [Node.restamp, Node.restamp, passOver_of_lt f (h t ht node hnode)]

/-- A joint that is made in one builder only takes one stamp of it. -/
theorem Builder.Renamed.passOver {f : Nat → Nat} {earlier : Array Event} {b c : Builder}
    (h : b.Renamed f earlier c) (hb : b.Separates) :
    b.Renamed (passOver f b.stamps) earlier (c.stamped jointLabel).2 where
  leaves slot := by
    show c.leaves[slot]? = _
    rw [h.leaves slot]
    cases hleaf : b.leaves[slot]? with
    | none => rfl
    | some node =>
      rw [Option.map_some, Option.map_some, Node.restamp, Node.restamp,
        passOver_of_lt f (hb.below hleaf)]
  visited := h.visited
  stamps k := by
    rw [passOver_of_le f (Nat.le_add_right _ _), h.stamps, Nat.add_right_comm]
    rfl
  events := h.events

/-- The growth `g` follows a builder `b` that has made the trees: it has made the same trees, with
their stamps renamed by `f`, and has joined them under nodes that have the stamps `joints`. -/
structure Follows (f : Nat → Nat) (joints : List Nat) (b : Builder) (trees : List (Tree Node))
    (g : Growth) : Prop where
  builder : b.Renamed f #[] g.builder
  path : ∀ number, number ∉ g.path
  mono : StrictMono f
  separates : b.Separates
  made : ∀ t ∈ trees, ∀ node ∈ t.values, node.stamp < b.stamps
  tree : g.tree? = if trees = [] then none else
    some (Tree.combWith (fun k => ⟨joints.getD k 0, jointLabel⟩) 0
      (trees.map (Tree.map (Node.restamp f))))
  length : joints.length = trees.length - 1
  nodup : joints.Nodup
  /-- A joint has a stamp that was given out, and no other node has it. -/
  apart : ∀ joint ∈ joints, joint < g.builder.stamps ∧ ∀ stamp, f stamp ≠ joint

namespace Follows
variable {f : Nat → Nat} {joints : List Nat} {b b' : Builder} {trees : List (Tree Node)}
  {g : Growth}

theorem start : Follows id [] {} [] {} where
  builder := ⟨by simp, rfl, fun _ => rfl, by simp⟩
  path := by simp
  mono := strictMono_id
  separates := Builder.separates_of_empty rfl
  made := by simp
  tree := rfl
  length := rfl
  nodup := .nil
  apart := by simp

theorem restart (h : Follows f joints b trees g) :
    Follows f joints { b with leaves := ∅, visited := ∅ } trees g.restart where
  builder := ⟨by simp [Growth.restart], rfl, h.builder.stamps, h.builder.events⟩
  path := by simp [Growth.restart]
  mono := h.mono
  separates := Builder.separates_of_empty rfl
  made := h.made
  tree := h.tree
  length := h.length
  nodup := h.nodup
  apart := h.apart

theorem entering {l : Listing} (h : Follows f joints b trees g) (place : Fin l.triads.size) :
    (Expansion.enter place ⟨b.report (.topLevel (l.triadAt place)), ∅, [], []⟩).Renamed f #[]
      (g.enter place) := by
  have hstate : State.Renamed (l := l) f #[] ⟨b.report (.topLevel (l.triadAt place)), ∅, [], []⟩
      ⟨g.builder.report (.topLevel (l.triadAt place)), g.path, [], []⟩ :=
    ⟨h.builder.report _, by simp [h.path], rfl, rfl⟩
  exact hstate.enter place

/-- The root is expanded in the same steps, with the stamps renamed as before. -/
theorem finishes {l : Listing} (h : Follows f joints b trees g) {place : Fin l.triads.size}
    {tree : Tree Node}
    (hfinishes : Finishes place (b.report (.topLevel (l.triadAt place))) tree b') :
    ∃ c path, Leads (g.enter place) (.more ⟨c, path, [], [tree.map (Node.restamp f)]⟩) ∧
      b'.Renamed f #[] c ∧ ∀ number, number ∉ path := by
  obtain ⟨path, hleads, hpath⟩ := hfinishes
  obtain ⟨q, hq, hgrows⟩ := hleads.renamed (h.entering place)
  cases hq with
  | @more _ t hend =>
    obtain ⟨c, path', tasks, nodes⟩ := t
    obtain rfl : tasks = [] := hend.tasks
    obtain rfl : nodes = [tree.map (Node.restamp f)] := hend.nodes
    exact ⟨c, path', hgrows, hend.builder, fun number hmem => hpath number ((hend.path number).mp hmem)⟩

theorem fails {l : Listing} (h : Follows f joints b trees g) {place : Fin l.triads.size}
    {defect : Defect}
    (hfails : l.expand place (b.report (.topLevel (l.triadAt place))) = .error defect b') :
    ∃ c, Leads (g.enter place) (.failed defect c) ∧ c.events = b'.events := by
  have hleads := (leads_run (coherent_start place _)).2 defect b' hfails
  rw [← enter_empty] at hleads
  obtain ⟨q, hq, hgrows⟩ := hleads.renamed (h.entering place)
  cases hq with
  | failed _ hend => exact ⟨_, hgrows, by rw [hend.events, Array.empty_append]⟩

/-- The first tree is the tree so far, with nothing above it. -/
theorem join_first (h : Follows f joints b [] g) {c : Builder} {path : NumberSet} {tree : Tree Node}
    (hc : b'.Renamed f #[] c) (hpath : ∀ number, number ∉ path) (hb' : b'.Separates)
    (hmade : ∀ node ∈ tree.values, node.stamp < b'.stamps) :
    Follows f [] b' [tree] (g.join c path (tree.map (Node.restamp f))) := by
  have hjoin : g.join c path (tree.map (Node.restamp f)) =
      ⟨c, path, some (tree.map (Node.restamp f))⟩ := by
    rw [Growth.join, h.tree]
    rfl
  rw [hjoin]
  exact ⟨hc, hpath, h.mono, hb', by simpa using hmade, rfl, rfl, .nil, by simp⟩

/-- Every other tree is joined under a node that takes the next stamp. -/
theorem join_next (h : Follows f joints b trees g) (hnil : trees ≠ []) {c : Builder}
    {path : NumberSet} {tree : Tree Node} (hc : b'.Renamed f #[] c)
    (hpath : ∀ number, number ∉ path) (hb' : b'.Separates) (hle : b.stamps ≤ b'.stamps)
    (hmade : ∀ node ∈ tree.values, node.stamp < b'.stamps) :
    Follows (passOver f b'.stamps) (joints ++ [c.stamps]) b' (trees ++ [tree])
      (g.join c path (tree.map (Node.restamp f))) := by
  have hjoin : g.join c path (tree.map (Node.restamp f)) = ⟨(c.stamped jointLabel).2, path,
      some (.node (c.stamped jointLabel).1 (Tree.combWith (fun k => ⟨joints.getD k 0, jointLabel⟩) 0
        (trees.map (Tree.map (Node.restamp f)))) (tree.map (Node.restamp f)))⟩ := by
    rw [Growth.join, h.tree, if_neg hnil]
  rw [hjoin]
  have hnow : f b'.stamps = c.stamps := hc.stamps 0
  have hbefore : g.builder.stamps ≤ c.stamps := by
    rw [← hnow, ← show f b.stamps = g.builder.stamps from h.builder.stamps 0]
    exact h.mono.monotone hle
  have hall : ∀ t ∈ trees ++ [tree], ∀ node ∈ t.values, node.stamp < b'.stamps := by
    intro t ht
    obtain ht | ht := List.mem_append.mp ht
    · exact fun node hnode => (h.made t ht node hnode).trans_le hle
    · rwa [List.mem_singleton.mp ht]
  refine ⟨hc.passOver hb', hpath, strictMono_passOver h.mono _, hb', hall, ?_, ?_, ?_, ?_⟩
  · rw [if_neg (by simp), map_restamp_passOver hall, List.map_append, List.map_singleton,
      Tree.combWith_append_singleton _ _ (by simpa using hnil), List.length_map, ← h.length]
    have hnode : (joints ++ [c.stamps]).getD (0 + joints.length) 0 = c.stamps := by simp
    have hcomb : Tree.combWith (fun k => (⟨(joints ++ [c.stamps]).getD k 0, jointLabel⟩ : Node)) 0
        (trees.map (Tree.map (Node.restamp f))) =
        Tree.combWith (fun k => ⟨joints.getD k 0, jointLabel⟩) 0
          (trees.map (Tree.map (Node.restamp f))) := by
      refine Tree.combWith_congr fun k hk => ?_
      rw [List.length_map, ← h.length, ← Nat.zero_add k] at hk
      rw [List.getD_append _ _ _ _ hk]
    rw [hnode, hcomb]
    rfl
  · have hpos := List.length_pos_iff.mpr hnil
    simp only [List.length_append, List.length_singleton, h.length]
    omega
  · refine h.nodup.append (List.nodup_singleton _) ?_
    rw [List.disjoint_singleton]
    exact fun hmem => Nat.not_lt_of_le hbefore (h.apart _ hmem).1
  · intro joint hjoint
    obtain hjoint | hjoint := List.mem_append.mp hjoint
    · obtain ⟨hearlier, hne⟩ := h.apart joint hjoint
      have hlt := hearlier.trans_le hbefore
      exact ⟨Nat.lt_succ_of_lt hlt, passOver_ne_of_lt h.mono (hnow.symm ▸ hlt) hne⟩
    · obtain rfl := List.mem_singleton.mp hjoint
      exact ⟨Nat.lt_succ_self _, hnow ▸ passOver_ne h.mono b'.stamps⟩

end Follows

/-! ## The loop follows the two parts -/

/-- Some renaming leads from what was built to what has grown. -/
def Mirrors (b : Builder) (trees : List (Tree Node)) (g : Growth) : Prop :=
  ∃ f joints, Follows f joints b trees g

/-- What grows from a tree of some trees, against what a part of the building gives: a growth with
the trees made in it, or the same defect after the same events. -/
inductive AsBuilt {α : Type} (trees : List (Tree Node)) (made : α → List (Tree Node)) :
    EStateM.Result Defect Builder α → Except (Defect × Builder) Growth → Prop where
  | ok {new : α} {b : Builder} {g : Growth} (mirrors : Mirrors b (trees ++ made new) g) :
      AsBuilt trees made (.ok new b) (.ok g)
  | error {defect : Defect} {b c : Builder} (events : c.events = b.events) :
      AsBuilt trees made (.error defect b) (.error (defect, c))

section
variable {α β : Type} {x : Build α} {f : α → Build β} {b b' : Builder}

theorem bind_apply_of_ok {a : α} (h : x b = .ok a b') : (x >>= f) b = f a b' := by
  show EStateM.bind x f b = _
  rw [EStateM.bind, h]

theorem bind_apply_of_error {defect : Defect} (h : x b = .error defect b') :
    (x >>= f) b = .error defect b' := by
  show EStateM.bind x f b = _
  rw [EStateM.bind, h]

end

/-- What a later part has built is what both parts have built. -/
theorem AsBuilt.after {α β : Type} {x : Build α} {b : Builder} {trees first : List (Tree Node)}
    {made : α → List (Tree Node)} {made' : β → List (Tree Node)} {k : α → β}
    {o : Except (Defect × Builder) Growth} (h : AsBuilt (trees ++ first) made (x b) o)
    (hmade : ∀ a, made' (k a) = first ++ made a) :
    AsBuilt trees made' ((x >>= fun a => pure (k a)) b) o := by
  cases hx : x b with
  | error defect b' =>
    rw [hx] at h
    cases h with
    | error events =>
      rw [bind_apply_of_error hx]
      exact .error events
  | ok a b' =>
    rw [hx] at h
    cases h with
    | ok mirrors =>
      rw [bind_apply_of_ok hx]
      refine .ok ?_
      rwa [hmade, ← List.append_assoc]

theorem Mirrors.visited_and_events {b : Builder} {trees : List (Tree Node)} {g : Growth}
    (h : Mirrors b trees g) :
    g.builder.visited = b.visited ∧ g.builder.events = b.events := by
  obtain ⟨f, joints, h⟩ := h
  exact ⟨h.builder.visited, by simpa using h.builder.events⟩

/-- One root. -/
theorem Mirrors.root {l : Listing} {b b' : Builder} {trees : List (Tree Node)} {g : Growth}
    (h : Mirrors b trees g) {place : Fin l.triads.size} {tree : Tree Node}
    (hexpand : l.expand place (b.report (.topLevel (l.triadAt place))) = .ok tree b') :
    ∃ c path next, Leads (g.enter place) (.more ⟨c, path, [], [next]⟩) ∧
      Mirrors b' (trees ++ [tree]) (g.join c path next) := by
  obtain ⟨f, joints, h⟩ := h
  obtain ⟨t, -, hmakes, hfinishes⟩ := (expand_makes place _).exists_of_ok hexpand
  obtain ⟨c, path, hleads, hc, hpath⟩ := h.finishes hfinishes
  have hkeeps := hmakes.keeps ⟨h.separates.below, h.separates.inj⟩
  have hmade : ∀ node ∈ tree.values, node.stamp < b'.stamps := by
    intro node hnode
    obtain hleaf | hbranch := Tree.mem_leafValues_or_branchValues hnode
    · obtain ⟨o, -, place, side, -, hkept⟩ := exists_of_mem_of_forall₂ hkeeps.leaves hleaf
      exact hkeeps.separates.below hkept
    · exact (hkeeps.range _ (List.mem_map_of_mem hbranch)).2
  refine ⟨c, path, _, hleads, ?_⟩
  by_cases hnil : trees = []
  · subst hnil
    exact ⟨f, [], h.join_first hc hpath hkeeps.separates hmade⟩
  · exact ⟨_, _, h.join_next hnil hc hpath hkeeps.separates hkeeps.le hmade⟩

/-- All roots of a listing. -/
theorem Mirrors.roots {l : Listing} (places : List (Fin l.triads.size)) {b : Builder}
    {trees : List (Tree Node)} {g : Growth} (h : Mirrors b trees g) :
    ∃ o, GrowsBy l places g o ∧ AsBuilt trees id (expandAll places b) o := by
  induction places generalizing b trees g with
  | nil => exact ⟨.ok g, .done g, .ok (by simpa using h)⟩
  | cons place places ih =>
    have hcons : expandAll (place :: places) b = (l.expand place >>= fun tree =>
        expandAll places >>= fun new => pure (tree :: new))
          (b.report (.topLevel (l.triadAt place))) := by
      rw [expandAll, List.mapM_cons]
      rfl
    rw [hcons]
    cases hexpand : l.expand place (b.report (.topLevel (l.triadAt place))) with
    | error defect b' =>
      obtain ⟨f, joints, h⟩ := h
      obtain ⟨c, hleads, hevents⟩ := h.fails hexpand
      rw [bind_apply_of_error hexpand]
      exact ⟨_, .failed hleads, .error hevents⟩
    | ok tree b' =>
      obtain ⟨c, path, next, hleads, hjoined⟩ := h.root hexpand
      obtain ⟨o, hgrows, hbuilt⟩ := ih hjoined
      refine ⟨o, .root hleads hgrows, ?_⟩
      rw [bind_apply_of_ok hexpand]
      exact hbuilt.after fun _ => rfl

/-- All listings. -/
theorem Mirrors.listings (listings : List Listing) {b : Builder} {trees : List (Tree Node)}
    {g : Growth} (h : Mirrors b trees g) :
    ∃ o, Grows listings g o ∧ AsBuilt trees List.flatten (listings.mapM Listing.forest b) o := by
  induction listings generalizing b trees g with
  | nil => exact ⟨.ok g, .done g, .ok (by simpa using h)⟩
  | cons l listings ih =>
    obtain ⟨f, joints, h⟩ := h
    obtain ⟨o, hgrows, hbuilt⟩ := Mirrors.roots l.topLevel ⟨f, joints, h.restart⟩
    have hforest := forest_apply l b
    rw [List.mapM_cons]
    cases hroots : expandAll l.topLevel { b with leaves := ∅, visited := ∅ } with
    | error defect b' =>
      rw [hroots] at hbuilt
      cases hbuilt with
      | error hevents =>
        rw [bind_apply_of_error hroots] at hforest
        rw [bind_apply_of_error hforest]
        exact ⟨_, .failed hgrows, .error hevents⟩
    | ok new b' =>
      rw [hroots] at hbuilt
      cases hbuilt with
      | @ok _ _ g' hmirrors =>
        rw [bind_apply_of_ok hroots, unlessMissed_apply] at hforest
        obtain ⟨hvisited, hevents⟩ := hmirrors.visited_and_events
        cases hmissed : l.unvisited? b'.visited with
        | some t =>
          rw [hmissed] at hforest
          rw [← hvisited] at hmissed
          rw [bind_apply_of_error hforest]
          exact ⟨_, .missed hgrows hmissed, .error hevents⟩
        | none =>
          rw [hmissed] at hforest
          rw [← hvisited] at hmissed
          obtain ⟨o, hothers, hbuilt⟩ := ih hmirrors
          refine ⟨o, .listing hgrows hmissed hothers, ?_⟩
          rw [bind_apply_of_ok hforest]
          exact hbuilt.after fun _ => List.flatten_cons

/-! ## The same tree -/

/-- The same tree of the same nodes, whatever stamps tell them apart. -/
def SameNodes (t u : Tree Node) : Prop :=
  ∃ f : Nat → Nat, u = t.map (Node.restamp f) ∧
    ∀ node ∈ t.values, ∀ node' ∈ t.values, f node.stamp = f node'.stamp → node.stamp = node'.stamp

/-- Renaming all stamps of a comb: by `f` those of the trees, and one by one those of the joints. -/
def combStamp (f : Nat → Nat) (joints : List Nat) (n stamp : Nat) : Nat :=
  if stamp < n then f stamp else joints.getD (stamp - n) 0

theorem combStamp_of_lt (f : Nat → Nat) (joints : List Nat) {n stamp : Nat} (h : stamp < n) :
    combStamp f joints n stamp = f stamp := if_pos h

theorem combStamp_add (f : Nat → Nat) (joints : List Nat) (n k : Nat) :
    combStamp f joints n (n + k) = joints.getD k 0 := by
  rw [combStamp, if_neg (by omega), Nat.add_sub_cancel_left]

namespace Follows
variable {f : Nat → Nat} {joints : List Nat} {b : Builder} {trees : List (Tree Node)} {g : Growth}

theorem tree_eq (h : Follows f joints b trees g) : g.tree?.getD .empty =
    (combFrom b.stamps trees).map (Node.restamp (combStamp f joints b.stamps)) := by
  rw [h.tree]
  split
  · rename_i hnil
    rw [hnil]
    rfl
  · have htrees : trees.map (Tree.map (Node.restamp (combStamp f joints b.stamps))) =
        trees.map (Tree.map (Node.restamp f)) := by
      refine List.map_congr_left fun t ht => Tree.map_congr fun node hnode => ?_
      rw [Node.restamp, Node.restamp, combStamp_of_lt f joints (h.made t ht node hnode)]
    rw [combFrom, Tree.map_combWith, htrees, Option.getD_some]
    refine Tree.combWith_congr fun k _ => ?_
    rw [Node.restamp, combStamp_add, Nat.zero_add]

/-- A node of the comb is one of a tree, or one of the joints. -/
theorem stamp_cases (h : Follows f joints b trees g) {node : Node}
    (hnode : node ∈ (combFrom b.stamps trees).values) :
    node.stamp < b.stamps ∨ ∃ k < joints.length, node.stamp = b.stamps + k := by
  obtain ⟨t, ht, hmem⟩ | ⟨k, hk, rfl⟩ := Tree.mem_values_combWith hnode
  · exact .inl (h.made t ht node hmem)
  · exact .inr ⟨k, h.length ▸ hk, rfl⟩

theorem sameNodes (h : Follows f joints b trees g) :
    SameNodes (combFrom b.stamps trees) (g.tree?.getD .empty) := by
  refine ⟨_, h.tree_eq, fun node hnode node' hnode' hsame => ?_⟩
  -- Joints have stamps that no node of a tree has, and different ones.
  have hjoint : ∀ {k}, k < joints.length → ∀ stamp, f stamp ≠ joints.getD k 0 := by
    intro k hk stamp
    rw [List.getD_eq_getElem _ _ hk]
    exact (h.apart _ (List.getElem_mem hk)).2 stamp
  obtain hlt | ⟨k, hk, hstamp⟩ := h.stamp_cases hnode <;>
    obtain hlt' | ⟨k', hk', hstamp'⟩ := h.stamp_cases hnode'
  · rw [combStamp_of_lt f joints hlt, combStamp_of_lt f joints hlt'] at hsame
    exact h.mono.injective hsame
  · rw [combStamp_of_lt f joints hlt, hstamp', combStamp_add] at hsame
    exact absurd hsame (hjoint hk' _)
  · rw [combStamp_of_lt f joints hlt', hstamp, combStamp_add] at hsame
    exact absurd hsame.symm (hjoint hk _)
  · rw [hstamp, hstamp', combStamp_add, combStamp_add, List.getD_eq_getElem _ _ hk,
      List.getD_eq_getElem _ _ hk'] at hsame
    rw [hstamp, hstamp', (List.Nodup.getElem_inj_iff h.nodup).mp hsame]

end Follows

/-- How the loop ends against what is built. -/
inductive SameResult :
    Except (Defect × Builder) Growth → Traced (Except Defect (Tree Node)) → Prop where
  | tree {g : Growth} {tree : Tree Node} (same : SameNodes tree (g.tree?.getD .empty)) :
      SameResult (.ok g) ⟨.ok tree, g.builder.events⟩
  | defect {defect : Defect} {b : Builder} :
      SameResult (.error (defect, b)) ⟨.error defect, b.events⟩

/-- Joining each tree as it comes, with the unfinished triads kept from root to root, ends in
exactly one way: as building all trees and then joining them does. -/
theorem grows_as_built (listings : List Listing) :
    ∃ o, Grows listings {} o ∧ (∀ o', Grows listings {} o' → o' = o) ∧
      SameResult o (Tree.ofListingsTraced listings) := by
  obtain ⟨o, hgrows, hbuilt⟩ := Mirrors.listings listings ⟨id, [], .start⟩
  refine ⟨o, hgrows, fun o' h' => hgrows.unique h', ?_⟩
  unfold Tree.ofListingsTraced EStateM.run Tree.build
  cases hforests : listings.mapM Listing.forest {} with
  | error defect b =>
    rw [hforests] at hbuilt
    cases hbuilt with
    | error events =>
      rw [bind_apply_of_error hforests]
      dsimp only
      rw [← events]
      exact .defect
  | ok forests b =>
    rw [hforests] at hbuilt
    cases hbuilt with
    | ok mirrors =>
      obtain ⟨b', hjoin, hevents⟩ := joinTrees_apply forests.flatten b
      rw [bind_apply_of_ok hforests, hjoin]
      dsimp only
      rw [hevents, ← mirrors.visited_and_events.2]
      obtain ⟨f, joints, h⟩ := mirrors
      exact .tree h.sameNodes

end ThreeAddress
