import ThreeAddress.Proofs.Editing

/-!
# The laws of edits

An edit names a triad by its number, and what it changes is a slot: one side of the triad that
look-up finds. Where look-up finds a number depends on the numbers of the listing only, which no
edit changes, and two numbers are never found at one place, however often either occurs. So a
listing is seen as its frames and the operands in its slots: an edit writes one slot and leaves all
else as it is (`operandAt?_afterEdit`), and after a run every slot holds what was last written to it
(`operandAt?_afterEdits`). The laws of edits one after the other follow from this view.
-/
namespace ThreeAddress

/-! ## Look-up by numbers -/

/-- The place at which a number is found in a list of numbers: the one that it names if it stands
there, else the first one that has it. -/
def lookUp? (numbers : List Nat) : Nat → Option Nat
  | 0 => none
  | index + 1 =>
      if numbers[index]? = some (index + 1) then some index
      else numbers.findIdx? fun number => number = index + 1

theorem getElem?_of_lookUp? {numbers : List Nat} {number place : Nat}
    (h : lookUp? numbers number = some place) : numbers[place]? = some number := by
  cases number with
  | zero => cases h
  | succ index =>
    rw [lookUp?] at h
    split at h
    · rename_i hindex
      rw [← Option.some.inj h]
      exact hindex
    · obtain ⟨hlt, hplace, -⟩ := List.findIdx?_eq_some_iff_getElem.mp h
      rw [List.getElem?_eq_getElem hlt]
      exact congrArg some (of_decide_eq_true hplace)

namespace Triad

@[simp] theorem operand_setOperand (t : Triad) (side other : Side) (operand : Operand) :
    (t.setOperand side operand).operand other =
      if side = other then operand else t.operand other := by
  cases side <;> cases other <;> rfl

theorem eq_of_frame_eq {s t : Triad} (hframe : s.frame = t.frame)
    (hleft : s.operand .left = t.operand .left) (hright : s.operand .right = t.operand .right) :
    s = t := by
  cases s
  cases t
  simp only [frame, operand, Prod.mk.injEq] at hframe hleft hright
  rw [hframe.1, hframe.2.1, hframe.2.2, hleft, hright]

end Triad

/-- The slot that an edit names: a number and a side. -/
def Edit.slot (e : Edit) : Nat × Side := (e.number, e.side)

namespace Listing

variable {k l : Listing}

/-- The place at which look-up finds a number. -/
def placeOf? (l : Listing) (number : Nat) : Option Nat := (l.indexOf? number).map Fin.val

theorem placeOf?_eq_lookUp? (l : Listing) (number : Nat) :
    l.placeOf? number = lookUp? (l.frames.map Prod.fst) number := by
  have hnumbers : l.frames.map Prod.fst = l.triads.toList.map Triad.number := by
    rw [frames, List.map_map]
    rfl
  cases number with
  | zero => rfl
  | succ index =>
    have hsearch : (l.triads.findFinIdx? fun t => t.number = index + 1).map Fin.val =
        (l.triads.toList.map Triad.number).findIdx? fun number => number = index + 1 := by
      rw [← Array.findIdx?_eq_map_findFinIdx?_val, List.findIdx?_map, ← List.findIdx?_toArray]
      rfl
    rw [placeOf?, indexOf?, lookUp?, hnumbers, List.getElem?_map, Array.getElem?_toList, ← hsearch]
    by_cases hlt : index < l.triads.size
    · rw [dif_pos hlt, Array.getElem?_eq_getElem hlt]
      by_cases hown : l.triads[index].number = index + 1
      · simp [hown]
      · simp [hown]
    · simp [hlt]

/-- Look-up finds a number at the same place in all listings with the same frames. -/
theorem placeOf?_congr (h : k.frames = l.frames) (number : Nat) :
    k.placeOf? number = l.placeOf? number := by
  rw [placeOf?_eq_lookUp?, placeOf?_eq_lookUp?, h]

/-- Two numbers are never found at one place. -/
theorem number_eq_of_placeOf? {number other place : Nat} (h : l.placeOf? number = some place)
    (hother : l.placeOf? other = some place) : number = other := by
  rw [placeOf?_eq_lookUp?] at h hother
  have hnumber := getElem?_of_lookUp? h
  rw [getElem?_of_lookUp? hother] at hnumber
  exact (Option.some.inj hnumber).symm

/-! ## Slots -/

/-- The operand in a slot: on one side of the triad at a place. -/
def operandAt? (l : Listing) (place : Nat) (side : Side) : Option Operand :=
  l.triads[place]?.map fun t => t.operand side

/-- A listing is its frames with the operands in its slots. -/
theorem eq_of_frames_eq (hframes : k.frames = l.frames)
    (hslots : ∀ place side, k.operandAt? place side = l.operandAt? place side) : k = l := by
  have htriads : ∀ place : Nat, k.triads[place]? = l.triads[place]? := by
    intro place
    have hframe := congrArg (fun frames => frames[place]?) hframes
    have hleft := hslots place .left
    have hright := hslots place .right
    simp only [frames, operandAt?, List.getElem?_map, Array.getElem?_toList] at hframe hleft hright
    cases hk : k.triads[place]? with
    | none =>
      rw [hk, Option.map_none] at hframe
      exact (Option.map_eq_none_iff.mp hframe.symm).symm
    | some s =>
      rw [hk, Option.map_some] at hframe hleft hright
      obtain ⟨t, ht, hsame⟩ := Option.map_eq_some_iff.mp hframe.symm
      rw [ht, Option.map_some, Option.some.injEq] at hleft hright
      rw [ht, Triad.eq_of_frame_eq hsame.symm hleft hright]
  cases k
  cases l
  exact congrArg mk (Array.ext_getElem? htriads)

theorem operandAt?_setAt (l : Listing) (i : Fin l.triads.size) (side : Side) (operand : Operand)
    (place : Nat) (other : Side) :
    (l.setAt i ((l.triadAt i).setOperand side operand)).operandAt? place other =
      if i.val = place ∧ side = other then some operand else l.operandAt? place other := by
  rw [operandAt?, operandAt?, setAt, Array.getElem?_set]
  by_cases hplace : i.val = place
  · subst hplace
    rw [if_pos rfl, Array.getElem?_eq_getElem i.isLt, Option.map_some, Triad.operand_setOperand]
    by_cases hside : side = other
    · simp [hside]
    · simp [hside, triadAt]
  · rw [if_neg hplace, if_neg fun h => hplace h.1]

/-- An edit whose number is not found is refused and changes nothing. -/
theorem edit_of_placeOf?_eq_none {e : Edit} (h : l.placeOf? e.number = none) :
    l.edit e = .error ⟨e.number⟩ ∧ l.afterEdit e = l := by
  rw [placeOf?, Option.map_eq_none_iff] at h
  have hedit : l.edit e = .error ⟨e.number⟩ := by rw [edit, h]
  exact ⟨hedit, by rw [afterEdit, hedit]⟩

/-- An edit whose number is found at a place returns what the slot held. -/
theorem edit_of_placeOf?_eq_some {e : Edit} {place : Nat} (h : l.placeOf? e.number = some place) :
    ∃ old, l.operandAt? place e.side = some old ∧ l.edit e = .ok (old, l.afterEdit e) := by
  obtain ⟨i, hi, rfl⟩ := Option.map_eq_some_iff.mp h
  refine ⟨(l.triadAt i).operand e.side, ?_, ?_⟩
  · rw [operandAt?, Array.getElem?_eq_getElem i.isLt]
    rfl
  · rw [afterEdit, edit, hi]

/-- An edit writes its slot, if its number is found, and no other. -/
theorem operandAt?_afterEdit (l : Listing) (e : Edit) (place : Nat) (side : Side) :
    (l.afterEdit e).operandAt? place side =
      if l.placeOf? e.number = some place ∧ e.side = side then some e.operand
      else l.operandAt? place side := by
  cases h : l.placeOf? e.number with
  | none => simp [(edit_of_placeOf?_eq_none h).2]
  | some p =>
    obtain ⟨i, hi, rfl⟩ := Option.map_eq_some_iff.mp h
    rw [afterEdit, edit, hi, operandAt?_setAt]
    simp only [Option.some.injEq]

theorem placeOf?_afterEdit (l : Listing) (e : Edit) (number : Nat) :
    (l.afterEdit e).placeOf? number = l.placeOf? number :=
  placeOf?_congr (l.frames_afterEdit e) number

/-! ## Runs of edits -/

/-- What a run writes last to a slot. -/
def lastWritten? (l : Listing) (edits : List Edit) (place : Nat) (side : Side) : Option Operand :=
  (edits.filter fun e => l.placeOf? e.number = some place ∧ e.side = side).getLast?.map Edit.operand

/-- After a run of edits a slot holds what was last written to it, or else what it held before. -/
theorem operandAt?_afterEdits (l : Listing) (edits : List Edit) (place : Nat) (side : Side) :
    (l.afterEdits edits).operandAt? place side =
      (l.lastWritten? edits place side).or (l.operandAt? place side) := by
  induction edits generalizing l with
  | nil => rfl
  | cons e edits ih =>
    have hlater : (l.afterEdit e).lastWritten? edits place side =
        l.lastWritten? edits place side := by
      simp only [lastWritten?, placeOf?_afterEdit]
    rw [afterEdits, List.foldl_cons, ← afterEdits, ih, hlater, operandAt?_afterEdit]
    by_cases hslot : l.placeOf? e.number = some place ∧ e.side = side
    · -- The edit writes the slot; what counts is still what the later ones write.
      rw [if_pos hslot, lastWritten?, lastWritten?, List.filter_cons_of_pos (by simpa using hslot),
        List.getLast?_cons]
      generalize (edits.filter _).getLast? = later
      cases later <;> rfl
    · rw [if_neg hslot, lastWritten?, lastWritten?, List.filter_cons_of_neg (by simpa using hslot)]

/-! ## Edits one after the other -/

/-- What an edit answers: the operand that it replaces, or that there is no such triad. -/
def answer (l : Listing) (e : Edit) : Except NoSuchTriad Operand := (l.edit e).map Prod.fst

/-- Only the slot matters for the answer. -/
theorem answer_eq (l : Listing) (e : Edit) :
    l.answer e = ((l.placeOf? e.number).bind fun place => l.operandAt? place e.side).elim
      (.error ⟨e.number⟩) .ok := by
  cases h : l.placeOf? e.number with
  | none =>
    rw [answer, (edit_of_placeOf?_eq_none h).1]
    rfl
  | some place =>
    obtain ⟨old, hold, hedit⟩ := edit_of_placeOf?_eq_some h
    rw [answer, hedit, Option.bind_some, hold]
    rfl

/-- Edits of different slots write different places or different sides. -/
theorem not_writes_both (l : Listing) {e f : Edit} (h : e.slot ≠ f.slot) (place : Nat)
    (side : Side) : ¬((l.placeOf? e.number = some place ∧ e.side = side) ∧
      l.placeOf? f.number = some place ∧ f.side = side) := by
  rintro ⟨⟨he, hside⟩, hf, hside'⟩
  apply h
  exact Prod.ext (number_eq_of_placeOf? he hf) (hside.trans hside'.symm)

theorem afterEdit_comm {e f : Edit} (h : e.slot ≠ f.slot) :
    (l.afterEdit e).afterEdit f = (l.afterEdit f).afterEdit e := by
  apply eq_of_frames_eq
  · simp only [frames_afterEdit]
  · intro place side
    have hboth := l.not_writes_both h place side
    simp only [operandAt?_afterEdit, placeOf?_afterEdit]
    by_cases he : l.placeOf? e.number = some place ∧ e.side = side
    · rw [if_pos he, if_neg fun hf => hboth ⟨he, hf⟩, if_pos he]
    · rw [if_neg he, if_neg he]

theorem answer_afterEdit {e f : Edit} (h : e.slot ≠ f.slot) :
    (l.afterEdit e).answer f = l.answer f := by
  rw [answer_eq, answer_eq, placeOf?_afterEdit]
  cases hplace : l.placeOf? f.number with
  | none => rfl
  | some place =>
    simp only [Option.bind_some, operandAt?_afterEdit]
    rw [if_neg fun he => l.not_writes_both h place f.side ⟨he, hplace, rfl⟩]

theorem afterEdit_afterEdit {e f : Edit} (h : e.slot = f.slot) :
    (l.afterEdit e).afterEdit f = l.afterEdit f := by
  obtain ⟨hnumber, hside⟩ := Prod.mk.inj h
  apply eq_of_frames_eq
  · simp only [frames_afterEdit]
  · intro place side
    simp only [operandAt?_afterEdit, placeOf?_afterEdit, hnumber, hside]
    by_cases hf : l.placeOf? f.number = some place ∧ f.side = side
    · rw [if_pos hf, if_pos hf]
    · rw [if_neg hf, if_neg hf, if_neg hf]

/-- Writing to a slot what it holds changes nothing. -/
theorem afterEdit_of_operandAt? {e : Edit} {place : Nat} (h : l.placeOf? e.number = some place)
    (hold : l.operandAt? place e.side = some e.operand) : l.afterEdit e = l := by
  apply eq_of_frames_eq (l.frames_afterEdit e)
  intro p side
  rw [operandAt?_afterEdit]
  by_cases hslot : l.placeOf? e.number = some p ∧ e.side = side
  · rw [if_pos hslot, ← hslot.2, ← hold, Option.some.inj (h.symm.trans hslot.1)]
  · rw [if_neg hslot]

/-- Writing back what an edit returned undoes the edit. -/
theorem edit_back {e : Edit} {old : Operand} {edited : Listing}
    (h : l.edit e = .ok (old, edited)) :
    edited.edit { e with operand := old } = .ok (e.operand, l) := by
  cases hplace : l.placeOf? e.number with
  | none =>
    rw [(edit_of_placeOf?_eq_none hplace).1] at h
    cases h
  | some place =>
    obtain ⟨held, hheld, hedit⟩ := edit_of_placeOf?_eq_some hplace
    rw [hedit] at h
    cases h
    let back : Edit := { e with operand := old }
    have hback : (l.afterEdit e).placeOf? back.number = some place := by
      rw [placeOf?_afterEdit]
      exact hplace
    obtain ⟨written, hwritten, hundo⟩ := edit_of_placeOf?_eq_some hback
    have hoperand : written = e.operand := by
      rw [operandAt?_afterEdit, if_pos ⟨hplace, rfl⟩] at hwritten
      exact (Option.some.inj hwritten).symm
    have hlisting : (l.afterEdit e).afterEdit back = l := by
      rw [afterEdit_afterEdit (e := e) (f := back) rfl]
      exact afterEdit_of_operandAt? (e := back) hplace hheld
    rw [hoperand, hlisting] at hundo
    exact hundo

/-- The laws that edits of a listing obey. -/
structure EditLaws (l : Listing) : Prop where
  /-- An edit is refused exactly when look-up finds no triad, under the number that it names. -/
  refused : ∀ e unknown, l.edit e = .error unknown ↔ l.get? e.number = none ∧ unknown = ⟨e.number⟩
  /-- An edit that is refused changes nothing. -/
  unchanged : ∀ e, l.get? e.number = none → l.afterEdit e = l
  /-- Otherwise it returns the operand that it replaces, and changes this side of the triad that
  look-up finds and nothing else. -/
  replaced : ∀ e t, l.get? e.number = some t → l.edit e = .ok (t.operand e.side, l.afterEdit e) ∧
    ∃ i, l.indexOf? e.number = some i ∧ l.triadAt i = t ∧ (l.afterEdit e).frames = l.frames ∧
      ∀ place side, (l.afterEdit e).operandAt? place side =
        if place = i ∧ side = e.side then some e.operand else l.operandAt? place side
  /-- Edits of different slots can be made in either order, with the same answers. -/
  independent : ∀ e f, e.slot ≠ f.slot →
    (l.afterEdit e).afterEdit f = (l.afterEdit f).afterEdit e ∧
      (l.afterEdit e).answer f = l.answer f ∧ (l.afterEdit f).answer e = l.answer e
  /-- Of two edits of one slot the second one counts. -/
  overwritten : ∀ e f, e.slot = f.slot → (l.afterEdit e).afterEdit f = l.afterEdit f
  /-- Writing back the returned operand restores the listing. -/
  restored : ∀ e old edited, l.edit e = .ok (old, edited) →
    edited.edit { e with operand := old } = .ok (e.operand, l)

theorem get?_eq_none_iff {number : Nat} : l.get? number = none ↔ l.placeOf? number = none := by
  rw [get?, placeOf?, Option.map_eq_none_iff, Option.map_eq_none_iff]

theorem editLaws (l : Listing) : l.EditLaws where
  refused := by
    intro e unknown
    rw [get?_eq_none_iff]
    cases h : l.placeOf? e.number with
    | none => simp [(edit_of_placeOf?_eq_none h).1, eq_comm]
    | some place =>
      obtain ⟨old, -, hedit⟩ := edit_of_placeOf?_eq_some h
      simp [hedit]
  unchanged := fun e h => (edit_of_placeOf?_eq_none (get?_eq_none_iff.mp h)).2
  replaced := by
    intro e t h
    obtain ⟨i, hi, rfl⟩ := Option.map_eq_some_iff.mp h
    have hplace : l.placeOf? e.number = some i.val := by
      rw [placeOf?, hi]
      rfl
    refine ⟨by rw [afterEdit, edit, hi], i, hi, rfl, l.frames_afterEdit e, fun place side => ?_⟩
    rw [operandAt?_afterEdit, hplace]
    simp only [Option.some.injEq, eq_comm]
  independent := fun e f h => ⟨afterEdit_comm h, answer_afterEdit h, answer_afterEdit h.symm⟩
  overwritten := fun e f h => afterEdit_afterEdit h
  restored := fun e old edited h => edit_back h

end Listing

/-- Over every run of edits a listing keeps its size and the number, operator and result of every
triad, and every slot holds what was last written to it. Further edits obey the laws of edits. -/
theorem edit_runs_write_slots (l : Listing) (edits : List Edit) :
    (l.afterEdits edits).size = l.size ∧ (l.afterEdits edits).frames = l.frames ∧
      (∀ place side, (l.afterEdits edits).operandAt? place side =
        (l.lastWritten? edits place side).or (l.operandAt? place side)) ∧
      (l.afterEdits edits).EditLaws := by
  have hframes := l.frames_afterEdits edits
  have hsize : (l.afterEdits edits).size = l.size := by
    simpa [Listing.frames, Listing.size] using congrArg List.length hframes
  exact ⟨hsize, hframes, l.operandAt?_afterEdits edits, Listing.editLaws _⟩

end ThreeAddress
