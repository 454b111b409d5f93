import ThreeAddress.Proofs.EditLaws

/-!
# Look-up and search

Look-up tries the place that a number names and searches only where another number stands there; a
search goes through the triads from the front. Both find a number above zero exactly when some triad
has it. They part over one kind of number: one that stands at its own place and at an earlier place
as well, where look-up takes the own place and a search the earlier one
(`placeOf?_eq_searchPlace?_iff`). Numbers can be out of order, have gaps and repeat themselves
otherwise. A listing with distinct numbers has none of the kind, and reading and editing make no
other listings.
-/
namespace ThreeAddress
open Statement

/-! ## Numbers in a list -/

theorem lookUp?_eq_none_iff {numbers : List Nat} {index : Nat} :
    lookUp? numbers (index + 1) = none ↔ index + 1 ∉ numbers := by
  rw [lookUp?]
  split
  · rename_i hown
    have hmem := List.mem_of_getElem? hown
    simp [hmem]
  · rw [List.findIdx?_eq_none_iff]
    constructor
    · intro hall hmem
      exact of_decide_eq_false (hall _ hmem) rfl
    · intro hnot number hmem
      apply decide_eq_false
      rintro rfl
      exact hnot hmem

/-- The guess agrees with the search unless it succeeds and the number stands earlier as well. -/
theorem lookUp?_eq_findIdx?_iff {numbers : List Nat} {index : Nat} :
    lookUp? numbers (index + 1) = numbers.findIdx? (fun number => number = index + 1) ↔
      (numbers[index]? = some (index + 1) →
        ∀ earlier < index, numbers[earlier]? ≠ some (index + 1)) := by
  rw [lookUp?]
  by_cases hown : numbers[index]? = some (index + 1)
  · obtain ⟨hlt, hindex⟩ := List.getElem?_eq_some_iff.mp hown
    rw [if_pos hown, eq_comm, List.findIdx?_eq_some_iff_getElem]
    constructor
    · rintro ⟨_, _, hbefore⟩ - earlier hearlier hsame
      obtain ⟨_, heq⟩ := List.getElem?_eq_some_iff.mp hsame
      exact hbefore earlier hearlier (decide_eq_true heq)
    · intro hbefore
      refine ⟨hlt, decide_eq_true hindex, fun earlier hearlier hsame => ?_⟩
      apply hbefore hown earlier hearlier
      rw [List.getElem?_eq_getElem (by omega), of_decide_eq_true hsame]
  · rw [if_neg hown]
    exact ⟨fun _ h => absurd h hown, fun _ => rfl⟩

namespace Listing

variable {l : Listing}

theorem getElem?_numbers {index number : Nat} :
    (l.frames.map Prod.fst)[index]? = some number ↔
      ∃ place : Fin l.triads.size, place.val = index ∧ (l.triadAt place).number = number := by
  constructor
  · intro h
    obtain ⟨hlt, -⟩ := List.getElem?_eq_some_iff.mp h
    have hsize : index < l.triads.size := by simpa [frames] using hlt
    rw [List.getElem?_map, l.getElem?_frames ⟨index, hsize⟩] at h
    exact ⟨⟨index, hsize⟩, rfl, Option.some.inj h⟩
  · rintro ⟨place, rfl, rfl⟩
    rw [List.getElem?_map, getElem?_frames]
    rfl

/-! ## What look-up finds -/

/-- The triad found has the number. -/
theorem number_of_indexOf? {number : Nat} {place : Fin l.triads.size}
    (h : l.indexOf? number = some place) : (l.triadAt place).number = number := by
  have hplace : l.placeOf? number = some place.val := by rw [placeOf?, h, Option.map_some]
  rw [placeOf?_eq_lookUp?] at hplace
  obtain ⟨found, hfound, hnumber⟩ := getElem?_numbers.mp (getElem?_of_lookUp? hplace)
  rwa [Fin.ext hfound] at hnumber

/-- A number above zero is missed only where no triad has it. -/
theorem indexOf?_eq_none_iff {index : Nat} :
    l.indexOf? (index + 1) = none ↔ ∀ place, (l.triadAt place).number ≠ index + 1 := by
  rw [← Option.map_eq_none_iff, ← placeOf?, placeOf?_eq_lookUp?, lookUp?_eq_none_iff,
    List.mem_iff_getElem?]
  simp only [getElem?_numbers]
  constructor
  · intro hnot place hnumber
    exact hnot ⟨place, place, rfl, hnumber⟩
  · rintro hall ⟨-, place, -, hnumber⟩
    exact hall place hnumber

/-! ## A search from the front -/

/-- The first triad that has a number. -/
def search? (l : Listing) (number : Nat) : Option Triad :=
  l.triads.toList.find? fun t => t.number = number

/-- The place of the first triad that has a number. -/
def searchPlace? (l : Listing) (number : Nat) : Option Nat :=
  l.triads.toList.findIdx? fun t => t.number = number

theorem search?_eq_bind (l : Listing) (number : Nat) :
    l.search? number = (l.searchPlace? number).bind fun place => l.triads.toList[place]? :=
  List.find?_eq_bind_findIdx?_getElem?

theorem get?_eq_bind (l : Listing) (number : Nat) :
    l.get? number = (l.placeOf? number).bind fun place => l.triads.toList[place]? := by
  rw [get?, placeOf?]
  cases l.indexOf? number with
  | none => rfl
  | some place =>
    rw [Option.map_some, Option.map_some, Option.bind_some, Array.getElem?_toList,
      Array.getElem?_eq_getElem place.isLt]
    rfl

theorem get?_eq_search? {number : Nat} (h : l.placeOf? number = l.searchPlace? number) :
    l.get? number = l.search? number := by
  rw [get?_eq_bind, search?_eq_bind, h]

/-- A number stands at its own place, the one that it names, and at an earlier place as well. -/
def StandsEarlier (l : Listing) (number : Nat) : Prop :=
  ∃ own earlier : Fin l.triads.size, own.val + 1 = number ∧ earlier < own ∧
    (l.triadAt own).number = number ∧ (l.triadAt earlier).number = number

/-- Look-up and search part exactly over the numbers that also stand before their own place. -/
theorem placeOf?_eq_searchPlace?_iff {index : Nat} :
    l.placeOf? (index + 1) = l.searchPlace? (index + 1) ↔ ¬l.StandsEarlier (index + 1) := by
  have hsearch : l.searchPlace? (index + 1) =
      (l.frames.map Prod.fst).findIdx? fun number => number = index + 1 := by
    rw [frames, List.map_map, List.findIdx?_map]
    rfl
  rw [hsearch, placeOf?_eq_lookUp?, lookUp?_eq_findIdx?_iff]
  constructor
  · rintro hbefore ⟨own, earlier, hplace, hearlier, hown, hsame⟩
    have hindex : own.val = index := by omega
    apply hbefore (getElem?_numbers.mpr ⟨own, hindex, hown⟩) earlier
    · omega
    · exact getElem?_numbers.mpr ⟨earlier, rfl, hsame⟩
  · intro hnot hown earlier hearlier hsame
    obtain ⟨own, rfl, hnumber⟩ := getElem?_numbers.mp hown
    obtain ⟨first, rfl, hfirst⟩ := getElem?_numbers.mp hsame
    exact hnot ⟨own, first, rfl, hearlier, hnumber, hfirst⟩

/-- Two triads share a number and one of them stands at its place: look-up takes that one, a search
the other. -/
example :
    let shared : Listing := ⟨#[
      ⟨2, .assign, .identifier "a", .identifier "b", none⟩,
      ⟨2, .assign, .identifier "c", .identifier "d", none⟩]⟩
    shared.placeOf? 2 = some 1 ∧ shared.searchPlace? 2 = some 0 := by
  decide

/-! ## Distinct numbers -/

/-- No two triads have the same number. -/
def DistinctlyNumbered (l : Listing) : Prop :=
  ∀ i j, (l.triadAt i).number = (l.triadAt j).number → i = j

instance (l : Listing) : Decidable l.DistinctlyNumbered :=
  inferInstanceAs (Decidable (∀ i j, (l.triadAt i).number = (l.triadAt j).number → i = j))

theorem DistinctlyNumbered.not_standsEarlier (h : l.DistinctlyNumbered) (number : Nat) :
    ¬l.StandsEarlier number := by
  rintro ⟨own, earlier, -, hearlier, hown, hsame⟩
  have hplace := h earlier own (hsame.trans hown.symm)
  omega

theorem Framed.distinctlyNumbered (h : l.Framed) : l.DistinctlyNumbered := by
  intro i j hnumber
  rw [h.number, h.number] at hnumber
  exact Fin.ext (by omega)

/-- With distinct numbers look-up finds the place and the triad that a search finds. -/
theorem DistinctlyNumbered.agrees (h : l.DistinctlyNumbered) {number : Nat} (hpos : 0 < number) :
    l.placeOf? number = l.searchPlace? number ∧ l.get? number = l.search? number := by
  obtain ⟨index, rfl⟩ := Nat.exists_eq_add_one.mpr hpos
  have hplace := placeOf?_eq_searchPlace?_iff.mpr (h.not_standsEarlier (index + 1))
  exact ⟨hplace, get?_eq_search? hplace⟩

/-- What look-up by number gives, and how it compares with a search from the front. -/
structure LookUpLaws (l : Listing) : Prop where
  /-- Zero is never found. -/
  zero : l.get? 0 = none
  /-- A number above zero is found exactly when some triad has it. -/
  found : ∀ number, 0 < number →
    ((l.get? number).isSome ↔ ∃ t ∈ l.triads.toList, t.number = number)
  /-- The triad found is one of the listing that has the number. -/
  named : ∀ number t, l.get? number = some t → t ∈ l.triads.toList ∧ t.number = number
  /-- Different numbers are found at different places. -/
  apart : ∀ m n i j, m ≠ n → l.indexOf? m = some i → l.indexOf? n = some j → i ≠ j
  /-- With distinct numbers look-up and search find the same place and the same triad. -/
  agrees : l.DistinctlyNumbered → ∀ number, 0 < number →
    l.placeOf? number = l.searchPlace? number ∧ l.get? number = l.search? number
  /-- In any listing they find the same place except for a number that stands at its own place and
  at an earlier one. -/
  parts : ∀ number, 0 < number →
    (l.placeOf? number = l.searchPlace? number ↔ ¬l.StandsEarlier number)

theorem lookUpLaws (l : Listing) : l.LookUpLaws where
  zero := rfl
  found := by
    intro number hpos
    obtain ⟨index, rfl⟩ := Nat.exists_eq_add_one.mpr hpos
    rw [get?, Option.isSome_map, ← Option.ne_none_iff_isSome, ne_eq, indexOf?_eq_none_iff]
    simp only [ne_eq, not_forall_not]
    constructor
    · rintro ⟨place, hnumber⟩
      exact ⟨l.triadAt place, mem_toList_triads.mpr ⟨place, rfl⟩, hnumber⟩
    · rintro ⟨t, ht, hnumber⟩
      obtain ⟨place, rfl⟩ := mem_toList_triads.mp ht
      exact ⟨place, hnumber⟩
  named := by
    intro number t h
    obtain ⟨place, hplace, rfl⟩ := Option.map_eq_some_iff.mp h
    exact ⟨mem_toList_triads.mpr ⟨place, rfl⟩, number_of_indexOf? hplace⟩
  apart := by
    rintro m n i j hne hm hn rfl
    exact hne ((number_of_indexOf? hm).symm.trans (number_of_indexOf? hn))
  agrees := fun h _ hpos => h.agrees hpos
  parts := by
    intro number hpos
    obtain ⟨index, rfl⟩ := Nat.exists_eq_add_one.mpr hpos
    exact placeOf?_eq_searchPlace?_iff

end Listing

/-- Look-up by number agrees with a search from the front. Zero is never found, another number
exactly when some triad has it, and different numbers at different places. Where numbers are
distinct, as they are after reading and any run of edits, it finds what the search finds. -/
theorem look_up_agrees_with_search (l : Listing) :
    l.LookUpLaws ∧ ∀ source, parse source = .ok l → ∀ edits,
      (l.afterEdits edits).DistinctlyNumbered ∧ ∀ number, 0 < number →
        (l.afterEdits edits).placeOf? number = (l.afterEdits edits).searchPlace? number ∧
          (l.afterEdits edits).get? number = (l.afterEdits edits).search? number := by
  refine ⟨l.lookUpLaws, fun source h edits => ?_⟩
  have hdistinct := (framed_of_parse h edits).distinctlyNumbered
  exact ⟨hdistinct, fun _ hpos => hdistinct.agrees hpos⟩

/-- Numbers with gaps and out of order, of which 3 stands at its own place, 1 is found where another
number was to be expected, and 7 lies beyond the listing; and a statement after edits, of which one
names no triad. -/
theorem look_up_agrees_with_search_unordered :
    let unordered : Listing := ⟨#[
      ⟨7, .add, .identifier "b", .identifier "c", some 7⟩,
      ⟨1, .multiply, .temporary 7, .identifier "d", some 1⟩,
      ⟨3, .subtract, .temporary 1, .temporary 0, some 3⟩,
      ⟨0, .assign, .identifier "a", .temporary 3, none⟩]⟩
    (unordered.DistinctlyNumbered ∧
      [1, 3, 7].map unordered.searchPlace? = [some 1, some 2, some 0] ∧
      ∀ number, 0 < number → unordered.placeOf? number = unordered.searchPlace? number ∧
        unordered.get? number = unordered.search? number) ∧
    ∃ l, parse "z:=(x-y)/-x;" = .ok l ∧
      let edited := l.afterEdits [⟨3, .right, .temporary 1⟩, ⟨9, .left, .temporary 2⟩,
        ⟨1, .left, .negated (.temporary 2)⟩]
      edited.DistinctlyNumbered ∧ ∀ number, 0 < number →
        edited.placeOf? number = edited.searchPlace? number ∧
          edited.get? number = edited.search? number := by
  intro unordered
  let l : Listing := ⟨#[
    ⟨1, .subtract, .identifier "x", .identifier "y", some 1⟩,
    ⟨2, .divide, .temporary 1, .negated (.identifier "x"), some 2⟩,
    ⟨3, .assign, .identifier "z", .temporary 2, none⟩]⟩
  have h : parse "z:=(x-y)/-x;" = .ok l := by decide +kernel
  have hdistinct : unordered.DistinctlyNumbered := by decide
  constructor
  · exact ⟨hdistinct, by decide, (look_up_agrees_with_search unordered).1.agrees hdistinct⟩
  · exact ⟨l, h, (look_up_agrees_with_search l).2 _ h _⟩

end ThreeAddress
