import ThreeAddress.NumberSet
import ThreeAddress.Triad

/-!
# Listings

The triads of a statement in the order in which they are carried out. Reading a statement puts the
triad numbered `k` at index `k - 1`; a listing put together otherwise may repeat, skip or reorder
numbers, and look-up then falls back to a search.
-/
namespace ThreeAddress

structure Listing where
  triads : Array Triad := #[]
  deriving DecidableEq, Repr

namespace Listing

def size (l : Listing) : Nat := l.triads.size

def isEmpty (l : Listing) : Bool := l.triads.isEmpty

def push (l : Listing) (t : Triad) : Listing := ⟨l.triads.push t⟩

def last? (l : Listing) : Option Triad := l.triads.back?

/-- The triad at a place. -/
def triadAt (l : Listing) (place : Fin l.triads.size) : Triad := l.triads[place]

theorem mem_toList_triads {l : Listing} {t : Triad} :
    t ∈ l.triads.toList ↔ ∃ place, l.triadAt place = t := by
  rw [Array.mem_toList_iff, Array.mem_iff_getElem]
  constructor
  · rintro ⟨i, hi, rfl⟩
    exact ⟨⟨i, hi⟩, rfl⟩
  · rintro ⟨place, rfl⟩
    exact ⟨place, place.isLt, rfl⟩

/-- The listing with another triad at a place. -/
def setAt (l : Listing) (place : Fin l.triads.size) (t : Triad) : Listing :=
  ⟨l.triads.set place t⟩

/-- Where the triad with a number stands: at the index that the number names if it is there, else
at the first place that has the number. No triad answers to zero. -/
def indexOf? (l : Listing) (number : Nat) : Option (Fin l.triads.size) :=
  match number with
  | 0 => none
  | index + 1 =>
      if h : index < l.triads.size then
        if l.triads[index].number = index + 1 then some ⟨index, h⟩
        else l.triads.findFinIdx? fun t => t.number = index + 1
      else l.triads.findFinIdx? fun t => t.number = index + 1

/-- A triad that stands at the place that its number names is found there. -/
theorem indexOf?_of_number {l : Listing} {place : Fin l.triads.size}
    (h : (l.triadAt place).number = place + 1) : l.indexOf? (place + 1) = some place :=
  (dif_pos place.isLt).trans (if_pos h)

/-- The triad with a number. -/
def get? (l : Listing) (number : Nat) : Option Triad :=
  (l.indexOf? number).map l.triadAt

/-- The temporaries that are an operand of some triad as they are, without a change of sign. -/
def consumed (l : Listing) : NumberSet :=
  .ofList (l.triads.toList.flatMap fun t => t.operands.filterMap Operand.temporary?)

/-- The temporaries that keep the result of some triad. -/
def produced (l : Listing) : NumberSet :=
  .ofList (l.triads.toList.filterMap Triad.result?)

/-- The listing as text, a line for each triad. -/
def text (l : Listing) : String := String.join (l.triads.toList.map Triad.line)

/-- Equality with numbers compared as numbers. -/
def equals (k l : Listing) : Bool :=
  k.size == l.size && (k.triads.toList.zip l.triads.toList).all fun (s, t) => s.equals t

end Listing
end ThreeAddress
