import Mathlib.Data.Fintype.EquivFin
import Mathlib.Data.List.Forall2
import Mathlib.Order.WellFounded
import ThreeAddress.Proofs.LookUp
import ThreeAddress.Proofs.Outline

/-!
# Which listings have a tree

A triad takes the result of another one when the temporary of that one is its operand as it is.
A listing as it stands after reading and editing has a tree exactly when every temporary taken is
kept by some triad and no triad takes its own result, directly or through others.

`Expands` says what the whole tree of a triad is, without the path of unfinished triads that the
recursion carries along. Whatever the recursion gives is such a tree, and a triad with a tree leads
to no cycle. In turn the recursion fails on no triad when there is no cycle: the unfinished triads
all lead to the one being entered. That no triad is missed follows from going up in place of down:
among finitely many triads, each is taken from some triad at the top or from a cycle.
-/
namespace ThreeAddress

open Statement Expansion

theorem Operand.temporary?_eq_some_iff {o : Operand} {k : Nat} :
    o.temporary? = some k ↔ o = .temporary k := by
  cases o <;> simp [temporary?]

theorem Operand.target?_eq_some_iff {o : Operand} {k : Nat} :
    o.target? = some (k + 1) ↔ o = .temporary (k + 1) := by
  constructor
  · intro h
    unfold target? at h
    split at h
    · cases h
      rfl
    · cases h
  · rintro rfl
    rfl

/-- Only temporaries numbered from one are expanded. -/
theorem Operand.exists_of_target? {o : Operand} {number : Nat} (h : o.target? = some number) :
    ∃ k, number = k + 1 := by
  unfold target? at h
  split at h
  · exact ⟨_, (Option.some.inj h).symm⟩
  · cases h

theorem except_bind_eq_ok_iff {ε α β : Type} {x : Except ε α} {f : α → Except ε β} {b : β} :
    (x >>= f) = .ok b ↔ ∃ a, x = .ok a ∧ f a = .ok b := by
  cases x <;> simp [bind, Except.bind]

theorem except_map_eq_ok_iff {ε α β : Type} {x : Except ε α} {f : α → β} {b : β} :
    x.map f = .ok b ↔ ∃ a, x = .ok a ∧ f a = b := by
  cases x <;> simp [Except.map]

theorem mapM_eq_ok_iff {ε α β : Type} {f : α → Except ε β} {xs : List α} {ys : List β} :
    xs.mapM f = .ok ys ↔ List.Forall₂ (fun x y => f x = .ok y) xs ys := by
  induction xs generalizing ys with
  | nil => cases ys <;> simp [pure, Except.pure]
  | cons x xs ih =>
    rw [List.mapM_cons, List.forall₂_cons_left_iff]
    simp only [except_bind_eq_ok_iff, ih, pure, Except.pure, Except.ok.injEq]
    constructor
    · rintro ⟨y, hy, zs, hzs, rfl⟩
      exact ⟨y, zs, hy, hzs, rfl⟩
    · rintro ⟨y, zs, hy, hzs, rfl⟩
      exact ⟨y, hy, zs, hzs, rfl⟩

theorem exists_of_mem_of_forall₂ {α β : Type} {R : α → β → Prop} {xs : List α} {ys : List β}
    (h : List.Forall₂ R xs ys) {y : β} (hy : y ∈ ys) : ∃ x ∈ xs, R x y := by
  induction h with
  | nil => cases hy
  | cons hxy _ ih =>
    rcases List.mem_cons.mp hy with rfl | hy
    · exact ⟨_, List.mem_cons_self, hxy⟩
    · obtain ⟨x, hx, hR⟩ := ih hy
      exact ⟨x, List.mem_cons_of_mem _ hx, hR⟩

theorem exists_forall₂_iff {α β : Type} {R : α → β → Prop} {xs : List α} :
    (∃ ys, List.Forall₂ R xs ys) ↔ ∀ x ∈ xs, ∃ y, R x y := by
  constructor
  · rintro ⟨ys, h⟩ x hx
    obtain ⟨y, -, hy⟩ := exists_of_mem_of_forall₂ h.flip hx
    exact ⟨y, hy⟩
  · intro h
    induction xs with
    | nil => exact ⟨[], .nil⟩
    | cons x xs ih =>
      obtain ⟨y, hy⟩ := h x List.mem_cons_self
      obtain ⟨ys, hys⟩ := ih fun x' hx' => h x' (List.mem_cons_of_mem _ hx')
      exact ⟨y :: ys, .cons hy hys⟩

/-- On finitely many elements a relation without a cycle is well founded. -/
theorem wf_of_no_cycle {α : Type} [Finite α] {r : α → α → Prop}
    (h : ∀ a, ¬Relation.TransGen r a a) : WellFounded r := by
  have : Std.Irrefl (Relation.TransGen r) := ⟨h⟩
  have hwf := Finite.wellFounded_of_trans_of_irrefl (Relation.TransGen r)
  exact Subrelation.wf (fun hab => Relation.TransGen.single hab) hwf

/-- Among finitely many elements, going up for ever from an element passes a cycle above it. -/
theorem exists_cycle_above {α : Type} [Finite α] {r : α → α → Prop} {a : α}
    (h : ∀ b, Relation.ReflTransGen r b a → ∃ c, r c b) :
    ∃ c, Relation.TransGen r c c ∧ Relation.ReflTransGen r c a := by
  by_contra hnone
  let above : Type := { b // Relation.ReflTransGen r b a }
  have hwf : WellFounded fun x y : above => r x.val y.val := by
    apply wf_of_no_cycle
    intro x hcycle
    exact hnone ⟨x.val, hcycle.lift Subtype.val fun _ _ hxy => hxy, x.property⟩
  -- A lowest element above `a` in this order would have nothing above it.
  obtain ⟨low, -, hlow⟩ := hwf.has_min Set.univ ⟨⟨a, .refl⟩, trivial⟩
  obtain ⟨c, hc⟩ := h low.val low.property
  exact hlow ⟨c, low.property.head hc⟩ trivial hc

/-- The values of all nodes, in the order of a walk. -/
def Tree.values {α : Type} : Tree α → List α
  | empty => []
  | node value left right => value :: (left.values ++ right.values)

/-! ## Whole trees -/

namespace Expansion

variable {l : Listing}

/-- The tree of an operand or of a triad, with everything below it. -/
inductive Expands (l : Listing) : Origin l → Tree (Origin l) → Prop where
  | leaf {place : Fin l.triads.size} {side : Side}
      (none : ((l.triadAt place).operand side).target? = none) :
      Expands l (.operand place side) (.leaf (.operand place side))
  | producer {place producer : Fin l.triads.size} {side : Side} {number : Nat}
      {t : Tree (Origin l)} (target : ((l.triadAt place).operand side).target? = some number)
      (found : l.indexOf? number = some producer) (below : Expands l (.triad producer) t) :
      Expands l (.operand place side) t
  | triad {place : Fin l.triads.size} {left right : Tree (Origin l)}
      (left_expands : Expands l (.operand place .left) left)
      (right_expands : Expands l (.operand place .right) right) :
      Expands l (.triad place) (.node (.triad place) left right)

theorem expands_of_unfoldOperand {below : Fin l.triads.size → Except Defect (Tree (Origin l))}
    (hbelow : ∀ place t, below place = .ok t → Expands l (.triad place) t)
    {place : Fin l.triads.size} {side : Side} {t : Tree (Origin l)}
    (h : unfoldOperand below place side = .ok t) : Expands l (.operand place side) t := by
  unfold unfoldOperand at h
  split at h
  · rename_i hnone
    cases h
    exact .leaf hnone
  · rename_i number htarget
    split at h
    · cases h
    · rename_i producer hfound
      exact .producer htarget hfound (hbelow producer t h)

/-- What the recursion gives is the whole tree. -/
theorem expands_of_unfold {path : List Nat} {place : Fin l.triads.size} {t : Tree (Origin l)}
    (h : Expansion.unfold l path place = .ok t) : Expands l (.triad place) t := by
  induction hn : (fresh l path).length using Nat.strongRecOn generalizing path place t with
  | ind n ih =>
    rw [Expansion.unfold] at h
    split at h
    · cases h
    · rename_i hfresh
      have hless := length_fresh_cons_lt hfresh
      have hbelow : ∀ p s, Expansion.unfold l ((l.triadAt place).number :: path) p = .ok s →
          Expands l (.triad p) s := fun p s hs => ih _ (hn ▸ hless) hs rfl
      obtain ⟨left, hleft, h⟩ := except_bind_eq_ok_iff.mp h
      obtain ⟨right, hright, h⟩ := except_bind_eq_ok_iff.mp h
      cases h
      exact .triad (expands_of_unfoldOperand hbelow hleft) (expands_of_unfoldOperand hbelow hright)

theorem mem_numbers_iff {t : Tree (Origin l)} {number : Nat} :
    number ∈ numbers t ↔ ∃ i, Origin.triad i ∈ t.values ∧ (l.triadAt i).number = number := by
  induction t with
  | empty => simp [numbers, Tree.values]
  | node origin left right ihl ihr =>
    cases origin with
    | operand => simp [numbers, Tree.values, ihl, ihr, or_and_right, exists_or]
    | triad place =>
      simp [numbers, Tree.values, ihl, ihr, or_and_right, exists_or, eq_comm (a := number)]

theorem Expands.mem_values {place : Fin l.triads.size} {t : Tree (Origin l)}
    (h : Expands l (.triad place) t) : .triad place ∈ t.values := by
  cases h
  exact List.mem_cons_self

/-- Every triad in a whole tree has its own whole tree. -/
theorem Expands.exists_of_mem_values {o : Origin l} {t : Tree (Origin l)} (h : Expands l o t)
    {place : Fin l.triads.size} (hmem : .triad place ∈ t.values) :
    ∃ s, Expands l (.triad place) s := by
  induction h with
  | leaf => simp [Tree.leaf, Tree.values] at hmem
  | producer _ _ _ ih => exact ih hmem
  | triad hleft hright ihl ihr =>
    rw [Tree.values, List.mem_cons, List.mem_append] at hmem
    rcases hmem with hroot | hmem | hmem
    · cases hroot
      exact ⟨_, .triad hleft hright⟩
    · exact ihl hmem
    · exact ihr hmem

theorem Expands.exists_operand {place : Fin l.triads.size} {t : Tree (Origin l)}
    (h : Expands l (.triad place) t) (side : Side) : ∃ s, Expands l (.operand place side) s := by
  cases h with
  | triad hleft hright =>
    cases side with
    | left => exact ⟨_, hleft⟩
    | right => exact ⟨_, hright⟩

/-- A temporary that is expanded names a triad. -/
theorem Expands.exists_place {place : Fin l.triads.size} {side : Side} {t : Tree (Origin l)}
    (h : Expands l (.operand place side) t) {number : Nat}
    (htarget : ((l.triadAt place).operand side).target? = some number) :
    ∃ producer, l.indexOf? number = some producer ∧ Expands l (.triad producer) t := by
  cases h with
  | leaf hnone => cases hnone.symm.trans htarget
  | producer hsome hfound hbelow =>
    obtain rfl := Option.some.inj (hsome.symm.trans htarget)
    exact ⟨_, hfound, hbelow⟩

end Expansion

/-! ## Results taken -/

namespace Listing

variable {l : Listing}

/-- The triad at `i` takes the result of the triad at `j` as it is. -/
def Takes (l : Listing) (i j : Fin l.triads.size) : Prop :=
  ∃ side, (l.triadAt i).operand side = .temporary (j.val + 1)

/-- Expanding the triad at `i` enters the triad at `j`: an operand of the one is a temporary, and
the other is found under its number. -/
def Enters (l : Listing) (i j : Fin l.triads.size) : Prop :=
  ∃ side number, ((l.triadAt i).operand side).target? = some number ∧ l.indexOf? number = some j

/-- No triad takes its own result, directly or through others. -/
def Acyclic (l : Listing) : Prop := ∀ i, ¬Relation.TransGen l.Takes i i

theorem mem_consumed_iff {k : Nat} : k ∈ l.consumed ↔
    ∃ (i : Fin l.triads.size) (side : Side), (l.triadAt i).operand side = .temporary k := by
  rw [consumed, NumberSet.mem_ofList_iff, List.mem_flatMap]
  simp only [List.mem_filterMap, Operand.temporary?_eq_some_iff, Triad.operands]
  constructor
  · rintro ⟨t, ht, o, ho, rfl⟩
    obtain ⟨i, rfl⟩ := mem_toList_triads.mp ht
    rcases List.mem_cons.mp ho with h | h
    · exact ⟨i, .left, h.symm⟩
    · exact ⟨i, .right, (List.mem_singleton.mp h).symm⟩
  · rintro ⟨i, side, h⟩
    refine ⟨l.triadAt i, mem_toList_triads.mpr ⟨i, rfl⟩, _, ?_, rfl⟩
    cases side with
    | left => exact h ▸ List.mem_cons_self
    | right => exact h ▸ List.mem_cons_of_mem _ List.mem_cons_self

/-- In a framed listing a number names the place before it. -/
theorem Framed.indexOf?_eq_some_iff (h : l.Framed) {k : Nat} {place : Fin l.triads.size} :
    l.indexOf? (k + 1) = some place ↔ place.val = k := by
  constructor
  · intro hfound
    have hnumber := number_of_indexOf? hfound
    rw [h.number] at hnumber
    omega
  · rintro rfl
    exact indexOf?_of_number (h.number place)

/-- In a framed listing the triads entered are those whose results are taken. -/
theorem Framed.enters_eq_takes (h : l.Framed) : l.Enters = l.Takes := by
  ext i j
  constructor
  · rintro ⟨side, number, htarget, hfound⟩
    obtain ⟨k, rfl⟩ := Operand.exists_of_target? htarget
    refine ⟨side, ?_⟩
    rw [h.indexOf?_eq_some_iff.mp hfound]
    exact Operand.target?_eq_some_iff.mp htarget
  · rintro ⟨side, hside⟩
    exact ⟨side, j.val + 1, Operand.target?_eq_some_iff.mpr hside, h.indexOf?_eq_some_iff.mpr rfl⟩

/-- In a framed listing the numbers in a tree tell which triads it has. -/
theorem Framed.mem_values_of_mem_numbers (h : l.Framed) {t : Tree (Origin l)}
    {i : Fin l.triads.size} (hi : (l.triadAt i).number ∈ numbers t) : .triad i ∈ t.values := by
  obtain ⟨j, hj, hnumber⟩ := mem_numbers_iff.mp hi
  rw [h.number, h.number] at hnumber
  obtain rfl : j = i := Fin.ext (by omega)
  exact hj

/-- The triads at the top are the last one and those whose results no triad takes. -/
theorem Framed.mem_topLevel_iff (h : l.Framed) {i : Fin l.triads.size} :
    i ∈ l.topLevel ↔ (i.val + 1 < l.triads.size → ∀ j, ¬l.Takes j i) := by
  rw [topLevel, List.mem_filter]
  simp only [List.mem_finRange, true_and]
  by_cases hlast : i.val + 1 < l.triads.size
  · rw [h.kept i hlast]
    have hconsumed : l.consumed.contains (i.val + 1) = true ↔ ∃ j, l.Takes j i := by
      rw [NumberSet.contains_iff_mem, mem_consumed_iff]
      rfl
    rw [forall_prop_of_true hlast, ← not_exists, ← hconsumed]
    simp only [Bool.not_eq_true']
    exact (Bool.not_eq_true _).symm.to_iff
  · obtain ⟨last, hback, -, hresult⟩ := h.closing
    rw [triadAt_eq_of_last? hback i hlast, hresult]
    exact iff_of_true rfl fun hlt => absurd hlt hlast

end Listing

/-! ## A tree has the triads that are entered, and leads to no cycle -/

namespace Expansion

variable {l : Listing}

/-- The triad that a node stands for, or whose operand it stands for. -/
def Origin.place : Origin l → Fin l.triads.size
  | operand place _ => place
  | triad place => place

/-- The tree of a triad has the trees of the triads that are entered from it below it. -/
theorem Expands.exists_of_enters {i j : Fin l.triads.size} {left right : Tree (Origin l)}
    (h : Expands l (.triad i) (.node (.triad i) left right)) (hj : l.Enters i j) :
    Expands l (.triad j) left ∨ Expands l (.triad j) right := by
  obtain ⟨side, number, htarget, hfound⟩ := hj
  have hoperand : ∀ {t : Tree (Origin l)}, Expands l (.operand i side) t →
      Expands l (.triad j) t := by
    intro t ht
    obtain ⟨producer, hproducer, hbelow⟩ := ht.exists_place htarget
    obtain rfl := Option.some.inj (hproducer.symm.trans hfound)
    exact hbelow
  cases h with
  | triad hleft hright =>
    cases side with
    | left => exact .inl (hoperand hleft)
    | right => exact .inr (hoperand hright)

/-- A whole tree has every triad that is entered in it. -/
theorem Expands.mem_values_of_enters {o : Origin l} {t : Tree (Origin l)} (h : Expands l o t)
    {i j : Fin l.triads.size} (hi : .triad i ∈ t.values) (hj : l.Enters i j) :
    .triad j ∈ t.values := by
  induction h with
  | leaf => simp [Tree.leaf, Tree.values] at hi
  | producer _ _ _ ih => exact ih hi
  | triad hleft hright ihl ihr =>
    simp only [Tree.values, List.mem_cons, List.mem_append] at hi ⊢
    rcases hi with hroot | hi | hi
    · cases hroot
      rcases (Expands.triad hleft hright).exists_of_enters hj with h | h
      · exact .inr (.inl h.mem_values)
      · exact .inr (.inr h.mem_values)
    · exact .inr (.inl (ihl hi))
    · exact .inr (.inr (ihr hi))

/-- Every node of a whole tree comes from a triad entered, through others, from that of the root. -/
theorem Expands.enters_place {o : Origin l} {t : Tree (Origin l)} (h : Expands l o t)
    {v : Origin l} (hv : v ∈ t.values) : Relation.ReflTransGen l.Enters o.place v.place := by
  induction h with
  | leaf =>
    obtain rfl : v = .operand _ _ := by simpa [Tree.leaf, Tree.values] using hv
    exact .refl
  | producer htarget hfound _ ih => exact .head ⟨_, _, htarget, hfound⟩ (ih hv)
  | triad _ _ ihl ihr =>
    rw [Tree.values, List.mem_cons, List.mem_append] at hv
    rcases hv with rfl | hv | hv
    · exact .refl
    · exact ihl hv
    · exact ihr hv

/-- The triads of a whole tree are those entered, through others, from its root. -/
theorem Expands.triad_mem_values_iff {i j : Fin l.triads.size} {t : Tree (Origin l)}
    (h : Expands l (.triad i) t) :
    .triad j ∈ t.values ↔ Relation.ReflTransGen l.Enters i j := by
  constructor
  · intro hj
    exact h.enters_place hj
  · intro hleads
    induction hleads with
    | refl => exact h.mem_values
    | tail _ henters ih => exact h.mem_values_of_enters ih henters

/-- Going from a triad with a tree to triads that are entered comes to an end. -/
theorem Expands.acc {i : Fin l.triads.size} {t : Tree (Origin l)} (h : Expands l (.triad i) t) :
    Acc (Function.swap l.Enters) i := by
  induction t generalizing i with
  | empty => cases h
  | node origin left right ihl ihr =>
    constructor
    intro j hj
    obtain rfl : origin = .triad i := by cases h; rfl
    rcases h.exists_of_enters hj with h | h
    · exact ihl h
    · exact ihr h

end Expansion

/-! ## Without a cycle there is a tree -/

namespace Listing

variable {l : Listing}

/-- No temporary that is an operand as it is has a number beyond the last triad's. -/
def Grounded (l : Listing) : Prop :=
  ∀ (i : Fin l.triads.size) (side : Side) (k : Nat),
    (l.triadAt i).operand side = .temporary k → k ≤ l.triads.size

theorem Acyclic.swap_wf (h : l.Acyclic) : WellFounded (Function.swap l.Takes) :=
  wf_of_no_cycle fun i hcycle => h i (Relation.transGen_swap.mp hcycle)

theorem acyclic_of_swap_wf (h : WellFounded (Function.swap l.Takes)) : l.Acyclic := by
  intro i hcycle
  exact h.transGen.irrefl.irrefl i (Relation.transGen_swap.mpr hcycle)

/-- The recursion fails on no operand when it fails on no triad whose result is taken. -/
theorem exists_unfoldOperand (hl : l.Framed) (hground : l.Grounded)
    {below : Fin l.triads.size → Except Defect (Tree (Origin l))} {i : Fin l.triads.size}
    (hbelow : ∀ j, l.Takes i j → ∃ t, below j = .ok t) (side : Side) :
    ∃ t, unfoldOperand below i side = .ok t := by
  unfold unfoldOperand
  cases htarget : ((l.triadAt i).operand side).target? with
  | none => exact ⟨_, rfl⟩
  | some number =>
    obtain ⟨k, rfl⟩ := Operand.exists_of_target? htarget
    have hoperand := Operand.target?_eq_some_iff.mp htarget
    have hk := hground i side _ hoperand
    have hfound : l.indexOf? (k + 1) = some ⟨k, hk⟩ := hl.indexOf?_eq_some_iff.mpr rfl
    obtain ⟨t, ht⟩ := hbelow ⟨k, hk⟩ ⟨side, hoperand⟩
    exact ⟨t, by simp only [hfound, ht]⟩

/-- The recursion succeeds on a triad to which all unfinished ones lead. -/
theorem exists_unfold (hl : l.Framed) (hground : l.Grounded) (hacyclic : l.Acyclic)
    (i : Fin l.triads.size) (path : List Nat)
    (hpath : ∀ number ∈ path, ∃ j : Fin l.triads.size, number = j.val + 1 ∧
      Relation.TransGen l.Takes j i) : ∃ t, Expansion.unfold l path i = .ok t := by
  induction i using hacyclic.swap_wf.induction generalizing path with
  | _ i ih =>
    have hfresh : (l.triadAt i).number ∉ path := by
      intro hmem
      obtain ⟨j, hj, hleads⟩ := hpath _ hmem
      rw [hl.number i] at hj
      obtain rfl : i = j := Fin.ext (by omega)
      exact hacyclic i hleads
    have hbelow : ∀ j, l.Takes i j →
        ∃ t, Expansion.unfold l ((l.triadAt i).number :: path) j = .ok t := by
      intro j hj
      apply ih j hj
      intro number hmem
      rcases List.mem_cons.mp hmem with rfl | hmem
      · exact ⟨i, hl.number i, .single hj⟩
      · obtain ⟨m, hm, hleads⟩ := hpath number hmem
        exact ⟨m, hm, hleads.tail hj⟩
    obtain ⟨left, hleft⟩ := exists_unfoldOperand hl hground hbelow .left
    obtain ⟨right, hright⟩ := exists_unfoldOperand hl hground hbelow .right
    rw [Expansion.unfold, dif_neg hfresh]
    refine ⟨.node (.triad i) left right, except_bind_eq_ok_iff.mpr ⟨left, hleft, ?_⟩⟩
    exact except_bind_eq_ok_iff.mpr ⟨right, hright, rfl⟩

/-- The triad is at the top or taken, directly or through others, from one at the top. -/
def FromTop (l : Listing) (i : Fin l.triads.size) : Prop :=
  ∃ root ∈ l.topLevel, Relation.ReflTransGen l.Takes root i

/-- What is not taken from the top is taken from a cycle. -/
theorem Framed.exists_cycle (hl : l.Framed) {i : Fin l.triads.size} (h : ¬l.FromTop i) :
    ∃ c, Relation.TransGen l.Takes c c ∧ Relation.ReflTransGen l.Takes c i := by
  apply exists_cycle_above
  intro j hj
  have htop : j ∉ l.topLevel := fun htop => h ⟨j, htop, hj⟩
  rw [hl.mem_topLevel_iff] at htop
  push Not at htop
  exact htop.2

/-- Without a cycle every triad is taken from the top. -/
theorem Framed.fromTop_of_acyclic (hl : l.Framed) (hacyclic : l.Acyclic)
    (i : Fin l.triads.size) : l.FromTop i := by
  by_contra h
  obtain ⟨c, hcycle, -⟩ := hl.exists_cycle h
  exact hacyclic c hcycle

/-! ## The trees at the top -/

/-- An outline holds the whole trees of the triads at the top, and no triad is missed. -/
theorem outline_eq_ok_iff {outline : List (Tree String)} : l.outline = .ok outline ↔
    ∃ ts, List.Forall₂ (fun place t => Expansion.unfold l [] place = .ok t) l.topLevel ts ∧
      (∀ i, (l.triadAt i).number ∈ ts.flatMap numbers) ∧
      outline = ts.map (Tree.map Origin.label) := by
  have hvisited : ∀ ts : List (Tree (Origin l)),
      l.unvisited? (.ofList (ts.flatMap numbers)) = none ↔
        ∀ i, (l.triadAt i).number ∈ ts.flatMap numbers := by
    intro ts
    rw [unvisited?, Array.find?_eq_none]
    simp only [Bool.not_eq_true', Bool.not_eq_false, NumberSet.contains_iff_mem,
      NumberSet.mem_ofList_iff]
    constructor
    · exact fun h i => h _ (Array.mem_toList_iff.mp (mem_toList_triads.mpr ⟨i, rfl⟩))
    · intro h t ht
      obtain ⟨i, rfl⟩ := mem_toList_triads.mp (Array.mem_toList_iff.mpr ht)
      exact h i
  rw [Listing.outline, except_bind_eq_ok_iff]
  simp only [mapM_eq_ok_iff, ← hvisited]
  constructor
  · rintro ⟨ts, hts, h⟩
    split at h
    · cases h
    · rename_i hnone
      exact ⟨ts, hts, hnone, (Except.ok.inj h).symm⟩
  · rintro ⟨ts, hts, hnone, rfl⟩
    refine ⟨ts, hts, ?_⟩
    rw [hnone]
    rfl

/-- Listings have a tree together exactly when each of them has an outline. -/
theorem ofListings_eq_ok_iff {listings : List Listing} {labels : Tree String} :
    (∃ tree, Tree.ofListings listings = .ok tree ∧ tree.map Node.label = labels) ↔
      ∃ outlines, List.Forall₂ (fun l outline => l.outline = .ok outline) listings outlines ∧
        comb outlines.flatten = labels := by
  rw [← except_map_eq_ok_iff, map_label_ofListings, except_map_eq_ok_iff]
  simp only [mapM_eq_ok_iff]

theorem ofListings_singleton_eq_ok_iff {labels : Tree String} :
    (∃ tree, Tree.ofListings [l] = .ok tree ∧ tree.map Node.label = labels) ↔
      ∃ outline, l.outline = .ok outline ∧ labels = comb outline := by
  rw [ofListings_eq_ok_iff]
  simp only [List.forall₂_cons_left_iff, List.forall₂_nil_left_iff]
  constructor
  · rintro ⟨_, ⟨outline, _, houtline, rfl, rfl⟩, rfl⟩
    exact ⟨outline, houtline, by simp⟩
  · rintro ⟨outline, houtline, rfl⟩
    exact ⟨[outline], ⟨outline, [], houtline, rfl, rfl⟩, by simp⟩

/-- A framed listing has an outline exactly when its triads refer to triads without a cycle. -/
theorem Framed.exists_outline_iff (hl : l.Framed) :
    (∃ outline, l.outline = .ok outline) ↔ l.Grounded ∧ l.Acyclic := by
  constructor
  · rintro ⟨outline, houtline⟩
    obtain ⟨ts, hts, hall, -⟩ := outline_eq_ok_iff.mp houtline
    -- No triad is missed, so each of them has its whole tree in one of those at the top.
    have hexpands : ∀ i, ∃ s, Expands l (.triad i) s := by
      intro i
      obtain ⟨t, ht, hmem⟩ := List.mem_flatMap.mp (hall i)
      obtain ⟨root, -, hroot⟩ := exists_of_mem_of_forall₂ hts ht
      exact (expands_of_unfold hroot).exists_of_mem_values (hl.mem_values_of_mem_numbers hmem)
    constructor
    · intro i side k hk
      cases k with
      | zero => exact Nat.zero_le _
      | succ k =>
        obtain ⟨s, hs⟩ := hexpands i
        obtain ⟨r, hr⟩ := hs.exists_operand side
        obtain ⟨j, hj, -⟩ := hr.exists_place (Operand.target?_eq_some_iff.mpr hk)
        have := hl.indexOf?_eq_some_iff.mp hj
        omega
    · apply acyclic_of_swap_wf
      rw [← hl.enters_eq_takes]
      exact ⟨fun i => (hexpands i).elim fun _ h => h.acc⟩
  · rintro ⟨hground, hacyclic⟩
    have hunfold : ∀ i, ∃ t, Expansion.unfold l [] i = .ok t := fun i =>
      exists_unfold hl hground hacyclic i [] fun _ hmem => absurd hmem List.not_mem_nil
    choose tree htree using hunfold
    refine ⟨_, outline_eq_ok_iff.mpr ⟨l.topLevel.map tree, ?_, fun i => ?_, rfl⟩⟩
    · rw [List.forall₂_map_right_iff, List.forall₂_same]
      exact fun i _ => htree i
    · obtain ⟨root, hroot, hleads⟩ := hl.fromTop_of_acyclic hacyclic i
      rw [← hl.enters_eq_takes] at hleads
      have hmem := (expands_of_unfold (htree root)).triad_mem_values_iff.mpr hleads
      rw [List.mem_flatMap]
      exact ⟨tree root, List.mem_map_of_mem hroot, mem_numbers_iff.mpr ⟨i, hmem, rfl⟩⟩

end Listing

/-- A listing as it stands after reading and any run of edits has a tree exactly when each temporary
that is an operand as it is names a triad, or none by being zero, and no triad takes its own result,
directly or through others. -/
theorem edited_has_tree_iff_acyclic {source : String} {l : Listing} (h : parse source = .ok l)
    (edits : List Edit) : (∃ tree, Tree.ofListings [l.afterEdits edits] = .ok tree) ↔
      (l.afterEdits edits).Grounded ∧ (l.afterEdits edits).Acyclic := by
  rw [← (framed_of_parse h edits).exists_outline_iff]
  constructor
  · rintro ⟨tree, htree⟩
    obtain ⟨outline, houtline, -⟩ :=
      Listing.ofListings_singleton_eq_ok_iff.mp ⟨tree, htree, rfl⟩
    exact ⟨outline, houtline⟩
  · rintro ⟨outline, houtline⟩
    obtain ⟨tree, htree, -⟩ := Listing.ofListings_singleton_eq_ok_iff.mpr ⟨outline, houtline, rfl⟩
    exact ⟨tree, htree⟩

/-- The product comes to take the result of the assignment, which closes a cycle, so that no tree is
left; the sum comes to take the temporary zero, and the edit between them names no triad. -/
theorem edited_has_tree_iff_acyclic_sum :
    ∃ l, parse "a:=b+c*d;" = .ok l ∧
      let edited := l.afterEdits
        [⟨1, .left, .temporary 3⟩, ⟨7, .left, .temporary 9⟩, ⟨2, .left, .temporary 0⟩]
      edited.triads.size = 3 ∧
        ((∃ tree, Tree.ofListings [edited] = .ok tree) ↔ edited.Grounded ∧ edited.Acyclic) ∧
        ¬edited.Acyclic ∧ ¬∃ tree, Tree.ofListings [edited] = .ok tree := by
  let l : Listing := ⟨#[
    ⟨1, .multiply, .identifier "c", .identifier "d", some 1⟩,
    ⟨2, .add, .identifier "b", .temporary 1, some 2⟩,
    ⟨3, .assign, .identifier "a", .temporary 2, none⟩]⟩
  have h : parse "a:=b+c*d;" = .ok l := by decide +kernel
  have hiff := edited_has_tree_iff_acyclic h
    [⟨1, .left, .temporary 3⟩, ⟨7, .left, .temporary 9⟩, ⟨2, .left, .temporary 0⟩]
  have hcycle : ¬(l.afterEdits
      [⟨1, .left, .temporary 3⟩, ⟨7, .left, .temporary 9⟩, ⟨2, .left, .temporary 0⟩]).Acyclic := by
    intro hacyclic
    refine hacyclic ⟨0, by decide +kernel⟩ (.tail (b := ⟨1, by decide +kernel⟩)
      (.tail (b := ⟨2, by decide +kernel⟩) (.single ?_) ?_) ?_)
    · exact ⟨.left, by decide +kernel⟩
    · exact ⟨.right, by decide +kernel⟩
    · exact ⟨.right, by decide +kernel⟩
  exact ⟨l, h, by decide +kernel, hiff, hcycle, fun htree => hcycle (hiff.mp htree).2⟩

end ThreeAddress
