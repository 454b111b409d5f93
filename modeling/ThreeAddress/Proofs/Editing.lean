import ThreeAddress.Listing.Edit
import ThreeAddress.Proofs.LinearUse

/-!
# Runs of edits

A run makes edits one after the other; an edit that names no triad changes nothing. Operands are
all that an edit can change, so the frames of the triads, which are their numbers, operators and
results, stay as they are over every run. After reading and any run of edits, numbers follow places
and every triad but the closing assignment keeps its result under its number, whatever the operands
have become.
-/
namespace ThreeAddress
open Statement

/-- What an edit cannot change in a triad: its number, its operator and its result. -/
def Triad.frame (t : Triad) : Nat × Operator × Option Nat := (t.number, t.operator, t.result?)

@[simp] theorem Triad.frame_setOperand (t : Triad) (side : Side) (operand : Operand) :
    (t.setOperand side operand).frame = t.frame := by
  cases side <;> rfl

namespace Listing

variable {k l : Listing}

/-- The listing after an edit, whether the edit succeeds or fails. -/
def afterEdit (l : Listing) (e : Edit) : Listing :=
  match l.edit e with
  | .ok (_, edited) => edited
  | .error _ => l

/-- The listing after a run of edits. -/
def afterEdits (l : Listing) (edits : List Edit) : Listing := edits.foldl afterEdit l

def frames (l : Listing) : List (Nat × Operator × Option Nat) := l.triads.toList.map Triad.frame

theorem getElem?_frames (l : Listing) (i : Fin l.triads.size) :
    l.frames[i.val]? = some (l.triadAt i).frame := by
  rw [frames, List.getElem?_map, Array.getElem?_toList, Array.getElem?_eq_getElem i.isLt]
  rfl

/-- Another triad with the same frame leaves the frames of the listing as they are. -/
theorem frames_setAt {i : Fin l.triads.size} {t : Triad} (h : t.frame = (l.triadAt i).frame) :
    (l.setAt i t).frames = l.frames := by
  have hset : (l.setAt i t).frames = l.frames.set i.val t.frame := by
    simp [frames, setAt, List.map_set]
  have hlt : i.val < l.frames.length := by simp [frames]
  have hself : l.frames[i.val] = (l.triadAt i).frame :=
    Option.some.inj ((List.getElem?_eq_getElem hlt).symm.trans (l.getElem?_frames i))
  rw [hset, h, ← hself, List.set_getElem_self]

theorem frames_afterEdit (l : Listing) (e : Edit) : (l.afterEdit e).frames = l.frames := by
  unfold afterEdit edit
  cases l.indexOf? e.number with
  | none => rfl
  | some i => exact frames_setAt (Triad.frame_setOperand ..)

/-- Edits keep numbers, operators and results. -/
theorem frames_afterEdits (l : Listing) (edits : List Edit) :
    (l.afterEdits edits).frames = l.frames := by
  induction edits generalizing l with
  | nil => rfl
  | cons e edits ih => exact (ih (l.afterEdit e)).trans (l.frames_afterEdit e)

/-- Numbers follow places, every triad but the last keeps its result under its number, and the last
is an assignment. Nothing is said of operands. -/
structure Framed (l : Listing) : Prop where
  number : ∀ i : Fin l.triads.size, (l.triadAt i).number = i + 1
  kept : ∀ i : Fin l.triads.size, i + 1 < l.triads.size → (l.triadAt i).result? = some (i.val + 1)
  closing : ∃ last, l.last? = some last ∧ last.operator = .assign ∧ last.result? = none

theorem LinearUse.framed (h : l.LinearUse) : l.Framed where
  number := h.number
  kept i hi := by rw [(h.operation i hi).2, h.number i]
  closing := h.closing

/-- Whether a listing is framed shows in its frames. -/
theorem Framed.of_frames_eq (h : l.Framed) (heq : k.frames = l.frames) : k.Framed := by
  have hsize : k.triads.size = l.triads.size := by
    simpa [frames] using congrArg List.length heq
  have hframe : ∀ i : Fin k.triads.size,
      (k.triadAt i).frame = (l.triadAt (i.cast hsize)).frame := by
    intro i
    have hl := l.getElem?_frames (i.cast hsize)
    rw [← heq] at hl
    exact Option.some.inj ((k.getElem?_frames i).symm.trans hl)
  refine ⟨fun i => ?_, fun i hi => ?_, ?_⟩
  · exact (congrArg Prod.fst (hframe i)).trans (h.number (i.cast hsize))
  · have hresult := congrArg (fun frame => frame.2.2) (hframe i)
    exact hresult.trans (h.kept (i.cast hsize) (by simpa [← hsize] using hi))
  · obtain ⟨last, hlast, hassign, hresult⟩ := h.closing
    have hback : k.last?.map Triad.frame = some last.frame := by
      have hframes := congrArg List.getLast? heq
      rw [frames, frames, List.getLast?_map, List.getLast?_map, Array.getLast?_toList,
        Array.getLast?_toList] at hframes
      rw [last?, hframes, ← last?, hlast]
      rfl
    obtain ⟨closing, hclosing, hsame⟩ := Option.map_eq_some_iff.mp hback
    have hoperator := congrArg (fun frame => frame.2.1) hsame
    have hnone := congrArg (fun frame => frame.2.2) hsame
    exact ⟨closing, hclosing, hoperator.trans hassign, hnone.trans hresult⟩

end Listing

/-- A statement that is read has a framed listing, and edits leave it framed. -/
theorem framed_of_parse {source : String} {l : Listing} (h : parse source = .ok l)
    (edits : List Edit) : (l.afterEdits edits).Framed := by
  obtain ⟨a, -, -, rfl⟩ := exists_assignment_of_parse h
  exact a.linearUse_listing.framed.of_frames_eq (a.listing.frames_afterEdits edits)

end ThreeAddress
