import ThreeAddress.Proofs.Merging

/-!
# What a defect tells

Building a tree stops at the first defect that it meets, and each defect is one of the listing. The
recursion stops at a temporary that names no triad, or at a triad that is unfinished already, and
both stand below the triad that it started from; `Stops` keeps how. An unfinished triad that is met
again leads to itself, since the unfinished triads are those on the way from the first to the last.
When no triad at the top stops, the triads that were visited are exactly those taken from the top. A
triad that was missed is then taken from a cycle, and nothing on that cycle is taken from the top.
-/
namespace ThreeAddress

open Statement Expansion

namespace Expansion

variable {l : Listing}

/-- Why the recursion stops below a triad, when those numbered in `path` are unfinished. -/
inductive Stops (l : Listing) (path : List Nat) (place : Fin l.triads.size) : Defect → Prop where
  | dangling {i : Fin l.triads.size} {side : Side} {k : Nat}
      (below : Relation.ReflTransGen l.Enters place i)
      (target : ((l.triadAt i).operand side).target? = some k) (none : l.indexOf? k = none) :
      Stops l path place (.dangling k)
  | unfinished {i : Fin l.triads.size} (below : Relation.ReflTransGen l.Enters place i)
      (mem : (l.triadAt i).number ∈ path) : Stops l path place (.cyclic (l.triadAt i).number)
  | again {i j : Fin l.triads.size} (below : Relation.ReflTransGen l.Enters place j)
      (leads : Relation.TransGen l.Enters j i)
      (same : (l.triadAt j).number = (l.triadAt i).number) :
      Stops l path place (.cyclic (l.triadAt i).number)

/-- What stops below a triad that is entered stops below the triad that it is entered from. -/
theorem Stops.of_enters {path : List Nat} {place producer : Fin l.triads.size} {defect : Defect}
    (henters : l.Enters place producer)
    (h : Stops l ((l.triadAt place).number :: path) producer defect) :
    Stops l path place defect := by
  cases h with
  | dangling below target none => exact .dangling (below.head henters) target none
  | unfinished below mem =>
    rcases List.mem_cons.mp mem with hnumber | hmem
    · exact .again .refl (.head' henters below) hnumber.symm
    · exact .unfinished (below.head henters) hmem
  | again below leads same => exact .again (below.head henters) leads same

theorem stops_of_unfoldOperand {below : Fin l.triads.size → Except Defect (Tree (Origin l))}
    {path : List Nat} {place : Fin l.triads.size} {side : Side} {defect : Defect}
    (hbelow : ∀ p, below p = .error defect →
      Stops l ((l.triadAt place).number :: path) p defect)
    (h : unfoldOperand below place side = .error defect) : Stops l path place defect := by
  unfold unfoldOperand at h
  split at h
  · cases h
  · rename_i number htarget
    split at h
    · rename_i hnone
      cases h
      exact .dangling .refl htarget hnone
    · rename_i producer hfound
      exact .of_enters ⟨side, number, htarget, hfound⟩ (hbelow producer h)

theorem stops_of_unfold {path : List Nat} {place : Fin l.triads.size} {defect : Defect}
    (h : Expansion.unfold l path place = .error defect) : Stops l path place defect := by
  induction hn : (fresh l path).length using Nat.strongRecOn generalizing path place with
  | ind n ih =>
    rw [Expansion.unfold] at h
    split at h
    · rename_i hmem
      cases h
      exact .unfinished .refl hmem
    · rename_i hfresh
      have hless := length_fresh_cons_lt hfresh
      have hbelow : ∀ p, Expansion.unfold l ((l.triadAt place).number :: path) p =
          .error defect → Stops l ((l.triadAt place).number :: path) p defect :=
        fun p hp => ih _ (hn ▸ hless) hp rfl
      obtain hleft | ⟨left, -, h⟩ := except_bind_eq_error_iff.mp h
      · exact stops_of_unfoldOperand hbelow hleft
      · obtain hright | ⟨right, -, h⟩ := except_bind_eq_error_iff.mp h
        · exact stops_of_unfoldOperand hbelow hright
        · cases h

end Expansion

namespace Listing

variable {l : Listing}

/-! ## Outlines with a defect -/

/-- Listings have a defect when one of them has it. -/
theorem exists_outline_of_ofListings {listings : List Listing} {defect : Defect}
    (h : Tree.ofListings listings = .error defect) : ∃ l ∈ listings, l.outline = .error defect := by
  have hlabels := map_label_ofListings listings
  rw [h] at hlabels
  obtain ⟨before, l, after, rfl, -, hl⟩ :=
    exists_first_of_mapM_eq_error (except_map_eq_error_iff.mp hlabels.symm)
  exact ⟨l, by simp, hl⟩

/-- An outline has a defect because a triad at the top stops, or because a triad was missed. -/
theorem stops_or_missed_of_outline {defect : Defect} (h : l.outline = .error defect) :
    (∃ root ∈ l.topLevel, Stops l [] root defect) ∨
      ∃ ts t, List.Forall₂ (fun place t => Expansion.unfold l [] place = .ok t) l.topLevel ts ∧
        l.unvisited? (.ofList (ts.flatMap numbers)) = some t ∧ defect = .unreachable t.number := by
  obtain hmapM | ⟨ts, hts, h⟩ := except_bind_eq_error_iff.mp h
  · left
    obtain ⟨before, root, after, htop, -, hroot⟩ := exists_first_of_mapM_eq_error hmapM
    exact ⟨root, by rw [htop]; simp, stops_of_unfold hroot⟩
  · right
    split at h
    · rename_i t ht
      exact ⟨ts, t, mapM_eq_ok_iff.mp hts, ht, (Except.error.inj h).symm⟩
    · cases h

/-! ## Triads that are missed -/

/-- The triad is at the top or entered, directly or through others, from one at the top. -/
def Reached (l : Listing) (i : Fin l.triads.size) : Prop :=
  ∃ root ∈ l.topLevel, Relation.ReflTransGen l.Enters root i

/-- The triads in the trees at the top are those that are reached. -/
theorem triad_mem_values_iff_reached {ts : List (Tree (Origin l))}
    (hts : List.Forall₂ (fun place t => Expansion.unfold l [] place = .ok t) l.topLevel ts)
    {i : Fin l.triads.size} : .triad i ∈ ts.flatMap Tree.values ↔ l.Reached i := by
  rw [List.mem_flatMap]
  constructor
  · rintro ⟨t, ht, hi⟩
    obtain ⟨root, hroot, hunfold⟩ := exists_of_mem_of_forall₂ hts ht
    exact ⟨root, hroot, (expands_of_unfold hunfold).triad_mem_values_iff.mp hi⟩
  · rintro ⟨root, hroot, hleads⟩
    obtain ⟨t, ht, hunfold⟩ := exists_of_mem_of_forall₂ hts.flip hroot
    exact ⟨t, ht, (expands_of_unfold hunfold).triad_mem_values_iff.mpr hleads⟩

/-- In a framed listing a number is visited when its triad is taken from the top. -/
theorem Framed.mem_numbers_iff_fromTop (hl : l.Framed) {ts : List (Tree (Origin l))}
    (hts : List.Forall₂ (fun place t => Expansion.unfold l [] place = .ok t) l.topLevel ts)
    (i : Fin l.triads.size) : (l.triadAt i).number ∈ ts.flatMap numbers ↔ l.FromTop i := by
  have hreached : l.Reached i ↔ l.FromTop i := by
    rw [Reached, hl.enters_eq_takes, FromTop]
  rw [← hreached, ← triad_mem_values_iff_reached hts, List.mem_flatMap, List.mem_flatMap]
  constructor
  · rintro ⟨t, ht, hi⟩
    exact ⟨t, ht, hl.mem_values_of_mem_numbers hi⟩
  · rintro ⟨t, ht, hi⟩
    exact ⟨t, ht, mem_numbers_iff.mpr ⟨i, hi, rfl⟩⟩

/-- The triad that was missed is the first one whose number was not visited. -/
theorem exists_first_of_unvisited? {visited : NumberSet} {t : Triad}
    (h : l.unvisited? visited = some t) :
    ∃ i, l.triadAt i = t ∧ t.number ∉ visited ∧ ∀ j < i, (l.triadAt j).number ∈ visited := by
  rw [unvisited?, Array.find?_eq_some_iff_getElem] at h
  obtain ⟨hmissed, i, hi, rfl, hbefore⟩ := h
  refine ⟨⟨i, hi⟩, rfl, ?_, fun j hj => ?_⟩
  · rw [Bool.not_eq_true'] at hmissed
    rw [← NumberSet.contains_iff_mem, hmissed]
    exact Bool.false_ne_true
  · have hvisited := hbefore j.val hj
    rwa [Bool.not_not, NumberSet.contains_iff_mem] at hvisited

/-! ## Genuine defects -/

/-- What a defect says of a listing. -/
def Genuine (l : Listing) : Defect → Prop
  /- No triad has the number, and a triad taken from the top has the temporary as an operand. -/
  | .dangling k => l.triads.size < k ∧
      ∃ i side, l.FromTop i ∧ (l.triadAt i).operand side = .temporary k
  /- The triad is taken from the top and takes its own result. -/
  | .cyclic number => ∃ i, (l.triadAt i).number = number ∧ l.FromTop i ∧
      Relation.TransGen l.Takes i i
  /- The triad is the first not taken from the top, and it is taken from a cycle of such triads. -/
  | .unreachable number => ∃ i, (l.triadAt i).number = number ∧ ¬l.FromTop i ∧
      (∀ j < i, l.FromTop j) ∧ ∃ c, Relation.TransGen l.Takes c c ∧
        (∀ j, Relation.ReflTransGen l.Takes c j → Relation.ReflTransGen l.Takes j c →
          ¬l.FromTop j) ∧ Relation.ReflTransGen l.Takes c i

theorem FromTop.trans {i j : Fin l.triads.size} (h : l.FromTop i)
    (hj : Relation.ReflTransGen l.Takes i j) : l.FromTop j := by
  obtain ⟨root, hroot, hleads⟩ := h
  exact ⟨root, hroot, hleads.trans hj⟩

theorem Framed.genuine_of_stops (hl : l.Framed) {root : Fin l.triads.size} {defect : Defect}
    (hroot : root ∈ l.topLevel) (h : Stops l [] root defect) : l.Genuine defect := by
  have htop : ∀ {i}, Relation.ReflTransGen l.Enters root i → l.FromTop i := by
    intro i hi
    rw [hl.enters_eq_takes] at hi
    exact ⟨root, hroot, hi⟩
  cases h with
  | @dangling i side k below target none =>
    obtain ⟨m, rfl⟩ := Operand.exists_of_target? target
    refine ⟨?_, i, side, htop below, Operand.target?_eq_some_iff.mp target⟩
    by_contra hle
    have hfound : l.indexOf? (m + 1) = some ⟨m, by omega⟩ := hl.indexOf?_eq_some_iff.mpr rfl
    rw [none] at hfound
    cases hfound
  | unfinished below mem => exact absurd mem List.not_mem_nil
  | @again i j below leads same =>
    rw [hl.number, hl.number] at same
    obtain rfl : j = i := Fin.ext (by omega)
    rw [hl.enters_eq_takes] at leads
    exact ⟨j, rfl, htop below, leads⟩

theorem Framed.genuine_of_missed (hl : l.Framed) {ts : List (Tree (Origin l))} {t : Triad}
    (hts : List.Forall₂ (fun place t => Expansion.unfold l [] place = .ok t) l.topLevel ts)
    (h : l.unvisited? (.ofList (ts.flatMap numbers)) = some t) :
    l.Genuine (.unreachable t.number) := by
  obtain ⟨i, rfl, hmissed, hbefore⟩ := exists_first_of_unvisited? h
  rw [NumberSet.mem_ofList_iff, hl.mem_numbers_iff_fromTop hts] at hmissed
  obtain ⟨c, hcycle, hc⟩ := hl.exists_cycle hmissed
  refine ⟨i, rfl, hmissed, fun j hj => ?_, c, hcycle, fun j _ hj htop => ?_, hc⟩
  · have hvisited := hbefore j hj
    rwa [NumberSet.mem_ofList_iff, hl.mem_numbers_iff_fromTop hts] at hvisited
  · exact hmissed ((htop.trans hj).trans hc)

end Listing

/-- After reading and any run of edits, a defect that stops the tree is one of the listing: the
temporary names no triad, the triad takes its own result, or the triad is the first that no triad at
the top leads to, and a cycle of such triads leads to it. -/
theorem edited_defect_is_genuine {source : String} {l : Listing} (h : parse source = .ok l)
    (edits : List Edit) {defect : Defect}
    (hdefect : Tree.ofListings [l.afterEdits edits] = .error defect) :
    (l.afterEdits edits).Genuine defect := by
  have hl := framed_of_parse h edits
  obtain ⟨k, hk, houtline⟩ := Listing.exists_outline_of_ofListings hdefect
  obtain rfl := List.mem_singleton.mp hk
  rcases Listing.stops_or_missed_of_outline houtline with
    ⟨root, hroot, hstops⟩ | ⟨ts, t, hts, hmissed, rfl⟩
  · exact hl.genuine_of_stops hroot hstops
  · exact hl.genuine_of_missed hts hmissed

/-- One statement edited in three ways. At first the sum takes a temporary beyond the last triad,
then the first triad takes the result of the second, and at last nothing at the top leads to these
two. -/
theorem edited_defect_is_genuine_each :
    ∃ l, parse "a:=b+c+d;" = .ok l ∧
      let dangling := l.afterEdits [⟨2, .right, .temporary 4⟩]
      let cyclic := l.afterEdits [⟨1, .left, .temporary 2⟩]
      let unreachable := cyclic.afterEdits [⟨3, .right, .identifier "e"⟩]
      (Tree.ofListings [dangling] = .error (.dangling 4) ∧ dangling.Genuine (.dangling 4)) ∧
      (Tree.ofListings [cyclic] = .error (.cyclic 2) ∧ cyclic.Genuine (.cyclic 2)) ∧
      Tree.ofListings [unreachable] = .error (.unreachable 1) ∧
        unreachable.Genuine (.unreachable 1) := by
  let l : Listing := ⟨#[
    ⟨1, .add, .identifier "b", .identifier "c", some 1⟩,
    ⟨2, .add, .temporary 1, .identifier "d", some 2⟩,
    ⟨3, .assign, .identifier "a", .temporary 2, none⟩]⟩
  have h : parse "a:=b+c+d;" = .ok l := by decide +kernel
  refine ⟨l, h, ?_⟩
  intro dangling cyclic unreachable
  have hdangling : Tree.ofListings [dangling] = .error (.dangling 4) := by decide +kernel
  have hcyclic : Tree.ofListings [cyclic] = .error (.cyclic 2) := by decide +kernel
  have hunreachable : Tree.ofListings [unreachable] = .error (.unreachable 1) := by
    decide +kernel
  exact ⟨⟨hdangling, edited_defect_is_genuine h _ hdangling⟩,
    ⟨hcyclic, edited_defect_is_genuine h _ hcyclic⟩, hunreachable,
    edited_defect_is_genuine h [⟨1, .left, .temporary 2⟩, ⟨3, .right, .identifier "e"⟩]
      hunreachable⟩

end ThreeAddress
