import ThreeAddress.Proofs.Acceptance
import ThreeAddress.Proofs.ReadOperands

/-!
# Listings tell statements apart

Two statements have the same triads exactly when they have the same abstract syntax. An operand
shows how many operations its expression has, because a temporary has the number of the last of
them; so the triads of an operation split into those of its left operand, those of its right
operand and its own, and the expression can be recovered from the outside inwards.

Listings are compared with numbers as numbers: a zero equals the negative zero, and what is no
number differs from itself. Numerals denote neither a negative zero nor what is no number, so for
listings of statements this is plain equality.
-/
namespace ThreeAddress

open Grammar Statement

/-! ## Numbers that numerals denote -/

namespace Binary64

/-- Neither negative nor beyond infinity. -/
def Plain (x : Binary64) : Prop := x.bits.toNat ≤ infinite

theorem Plain.magnitude_eq {x : Binary64} (h : x.Plain) : x.magnitude = x.bits.toNat := by
  have hbound : infinite < Nat.pow 2 63 := by decide
  exact Nat.mod_eq_of_lt (Nat.lt_of_le_of_lt h hbound)

theorem Plain.isNaN_eq {x : Binary64} (h : x.Plain) : x.isNaN = false := by
  rw [isNaN, h.magnitude_eq]
  exact decide_eq_false (Nat.not_lt.mpr h)

/-- Plain numbers are equal as numbers when they have the same bits. -/
theorem Plain.equals_iff {x y : Binary64} (hx : x.Plain) (hy : y.Plain) :
    x.equals y = true ↔ x = y := by
  have hzero : x.magnitude = 0 ∧ y.magnitude = 0 → x.bits = y.bits := by
    rintro ⟨h0, h0'⟩
    rw [hx.magnitude_eq] at h0
    rw [hy.magnitude_eq] at h0'
    exact UInt64.toNat_inj.mp (h0.trans h0'.symm)
  have hbits : x.bits = y.bits ↔ x = y :=
    ⟨fun h => by cases x; cases y; exact congrArg mk h, fun h => h ▸ rfl⟩
  simp only [equals, hx.isNaN_eq, hy.isNaN_eq, Bool.not_false, Bool.true_and, Bool.or_eq_true,
    Bool.and_eq_true, beq_iff_eq, ← hbits]
  exact ⟨fun h => h.elim id hzero, .inl⟩

theorem plain_ofNumeral? {cs : List Char} {x : Binary64} (h : ofNumeral? cs = some x) :
    x.Plain := by
  obtain ⟨⟨digits, places⟩, -, rfl⟩ := Option.map_eq_some_iff.mp h
  unfold ofRatio ofMagnitude Plain
  rw [UInt64.toNat_ofNat']
  exact Nat.le_trans (Nat.mod_le _ _) (Nat.min_le_left _ _)

end Binary64

/-! ## Equality of listings with plain numbers -/

/-- A number in the operand is plain; the changes of sign around it are not part of it. -/
def Operand.Plain : Operand → Prop
  | number value => value.Plain
  | negated operand => operand.Plain
  | identifier _ | character _ | temporary _ => True

theorem Operand.Plain.equals_iff {x y : Operand} (hx : x.Plain) (hy : y.Plain) :
    x.equals y = true ↔ x = y := by
  induction x generalizing y with
  | number value =>
    cases y with
    | number value' => simpa [equals] using Binary64.Plain.equals_iff hx hy
    | identifier | character | temporary | negated => simp [equals]
  | negated operand ih =>
    cases y with
    | negated operand' => simpa [equals] using ih (y := operand') hx hy
    | identifier | character | temporary | number => simp [equals]
  | identifier | character | temporary => cases y <;> simp [equals]

def Triad.Plain (t : Triad) : Prop := t.left.Plain ∧ t.right.Plain

theorem Triad.Plain.equals_iff {s t : Triad} (hs : s.Plain) (ht : t.Plain) :
    s.equals t = true ↔ s = t := by
  obtain ⟨number, operator, left, right, result⟩ := s
  obtain ⟨number', operator', left', right', result'⟩ := t
  simp [equals, Operand.Plain.equals_iff hs.1 ht.1, Operand.Plain.equals_iff hs.2 ht.2, and_assoc]

theorem all_zip_equals_iff {xs ys : List Triad} (hx : ∀ t ∈ xs, t.Plain) (hy : ∀ t ∈ ys, t.Plain)
    (hlength : xs.length = ys.length) :
    ((xs.zip ys).all fun (s, t) => s.equals t) = true ↔ xs = ys := by
  induction xs generalizing ys with
  | nil => cases ys <;> simp_all
  | cons x xs ih =>
    cases ys with
    | nil => cases hlength
    | cons y ys =>
      have htail := ih (fun t ht => hx t (List.mem_cons_of_mem _ ht))
        (fun t ht => hy t (List.mem_cons_of_mem _ ht)) (Nat.succ.inj hlength)
      have hhead := (hx x List.mem_cons_self).equals_iff (hy y List.mem_cons_self)
      rw [List.zip_cons_cons, List.all_cons, Bool.and_eq_true, htail, hhead, List.cons.injEq]

/-- With plain numbers, listings that compare as equal are the same. -/
theorem Listing.equals_iff {k l : Listing} (hk : ∀ t ∈ k.triads.toList, t.Plain)
    (hl : ∀ t ∈ l.triads.toList, t.Plain) : k.equals l = true ↔ k = l := by
  rw [equals, Bool.and_eq_true, beq_iff_eq]
  constructor
  · rintro ⟨hsize, hall⟩
    have hlength : k.triads.toList.length = l.triads.toList.length := by
      rw [Array.length_toList, Array.length_toList]
      exact hsize
    have hlist := (all_zip_equals_iff hk hl hlength).mp hall
    cases k
    cases l
    exact congrArg mk (Array.toList_inj.mp hlist)
  · rintro rfl
    exact ⟨rfl, (all_zip_equals_iff hk hk rfl).mpr rfl⟩

/-! ## The numbers of statements are plain -/

theorem Grammar.Word.plain_term (w : Word) : w.term.operand.Plain := by
  cases w with
  | name | quoted => exact trivial
  | numeral digits h => exact Binary64.plain_ofNumeral? (Option.some_get _).symm

theorem Operand.Read.plain {o : Operand} (h : o.Read) : o.Plain := by
  induction h with
  | word w => exact w.plain_term
  | temporary => exact trivial
  | negated _ ih => exact ih

theorem Grammar.Denotes.plain {source : String} {a : Assignment} (h : Denotes source a) :
    ∀ t ∈ a.listing.triads.toList, t.Plain := fun t ht =>
  ⟨(h.read t ht).left.plain, (h.read t ht).right.plain⟩

/-! ## Recovering the expression -/

theorem BinaryOperator.operator_injective {op op' : BinaryOperator}
    (h : op.operator = op'.operator) : op = op' := by
  cases op <;> cases op' <;> cases h <;> rfl

namespace Term

theorem operand_injective {s t : Term} (h : s.operand = t.operand) : s = t := by
  cases s <;> cases t <;> cases h <;> rfl

theorem operand_ne_negated (t : Term) (o : Operand) : t.operand ≠ .negated o := by
  cases t <;> exact Operand.noConfusion

theorem operand_ne_temporary (t : Term) (k : Nat) : t.operand ≠ .temporary k := by
  cases t <;> exact Operand.noConfusion

end Term

namespace Expr

/-- The operand of an expression shows how many operations the expression has. -/
theorem operations_eq_of_operand_eq {e f : Expr} {n : Nat} (h : e.operand n = f.operand n) :
    e.operations = f.operations := by
  induction e generalizing f with
  | term t =>
    cases f with
    | term => rfl
    | negation => exact absurd h (t.operand_ne_negated _)
    | operation => exact absurd h (t.operand_ne_temporary _)
  | negation e ih =>
    cases f with
    | term t => exact absurd h.symm (t.operand_ne_negated _)
    | negation f => exact ih (f := f) (Operand.negated.inj h)
    | operation => cases h
  | operation op left right =>
    cases f with
    | term t => exact absurd h.symm (t.operand_ne_temporary _)
    | negation => cases h
    | operation op' left' right' =>
      have hnumber := Operand.temporary.inj h
      simp only [operations]
      omega

/-- The triads and the operand of an expression determine it. -/
theorem eq_of_triads_eq {e f : Expr} {n : Nat} (htriads : e.triads n = f.triads n)
    (hoperand : e.operand n = f.operand n) : e = f := by
  induction e generalizing f n with
  | term t =>
    cases f with
    | term t' => rw [Term.operand_injective hoperand]
    | negation => exact absurd hoperand (t.operand_ne_negated _)
    | operation => exact absurd hoperand (t.operand_ne_temporary _)
  | negation e ih =>
    cases f with
    | term t => exact absurd hoperand.symm (t.operand_ne_negated _)
    | negation f => rw [ih (f := f) htriads (Operand.negated.inj hoperand)]
    | operation => cases hoperand
  | operation op left right ihl ihr =>
    cases f with
    | term t => exact absurd hoperand.symm (t.operand_ne_temporary _)
    | negation => cases hoperand
    | operation op' left' right' =>
      obtain ⟨hbelow, hlast⟩ := List.append_inj' htriads rfl
      have htriad : triadOf n op left right = triadOf n op' left' right' :=
        List.singleton_inj.mp hlast
      have hop : op.operator = op'.operator := congrArg Triad.operator htriad
      have hleft : left.operand n = left'.operand n := congrArg Triad.left htriad
      have hright : right.operand (n + left.operations) = right'.operand (n + left'.operations) :=
        congrArg Triad.right htriad
      -- Both left operands have as many triads, so what is below splits at the same place.
      have hcount := operations_eq_of_operand_eq hleft
      obtain ⟨hbelowl, hbelowr⟩ := List.append_inj hbelow (by simp only [length_triads, hcount])
      rw [← hcount] at hright hbelowr
      rw [BinaryOperator.operator_injective hop, ihl hbelowl hleft, ihr hbelowr hright]

end Expr

/-- The listing of a statement determines the statement. -/
theorem Assignment.listing_injective {a b : Assignment} (h : a.listing = b.listing) : a = b := by
  have htriads : a.triads = b.triads := congrArg (fun l => l.triads.toList) h
  obtain ⟨hvalue, hlast⟩ := List.append_inj' htriads rfl
  have hclosing : a.closing = b.closing := List.singleton_inj.mp hlast
  have htarget := Term.operand_injective (congrArg Triad.left hclosing)
  have hexpr := Expr.eq_of_triads_eq hvalue (congrArg Triad.right hclosing)
  cases a
  cases b
  exact congr (congrArg mk htarget) hexpr

/-- Two statements that are read have equal listings exactly when they have the same abstract
syntax: the same target and terms, numerals taken as the numbers that they denote, the same
operators in the same shape, and the same changes of sign. -/
theorem equal_listings_iff_same_syntax {source₁ source₂ : String} {l₁ l₂ : Listing}
    (h₁ : parse source₁ = .ok l₁) (h₂ : parse source₂ = .ok l₂) :
    ∃ a₁ a₂, (Denotes source₁ a₁ ∧ ∀ b, Denotes source₁ b → b = a₁) ∧
      (Denotes source₂ a₂ ∧ ∀ b, Denotes source₂ b → b = a₂) ∧
      (l₁.equals l₂ = true ↔ a₁ = a₂) ∧ (l₁ = l₂ ↔ a₁ = a₂) := by
  obtain ⟨a₁, hdenotes₁, hunique₁, rfl⟩ := exists_assignment_of_parse h₁
  obtain ⟨a₂, hdenotes₂, hunique₂, rfl⟩ := exists_assignment_of_parse h₂
  have hsame : a₁.listing = a₂.listing ↔ a₁ = a₂ :=
    ⟨Assignment.listing_injective, fun h => h ▸ rfl⟩
  refine ⟨a₁, a₂, ⟨hdenotes₁, hunique₁⟩, ⟨hdenotes₂, hunique₂⟩, ?_, hsame⟩
  rw [Listing.equals_iff hdenotes₁.plain hdenotes₂.plain, hsame]

/-- Redundant brackets and two numerals for one number. -/
theorem equal_listings_iff_same_syntax_bracketed :
    ∃ l, parse "a:=-(b)+1.0*c;" = .ok l ∧ parse "a:=((-b)+(01*(c)));" = .ok l ∧
      ∃ a₁ a₂, (Denotes "a:=-(b)+1.0*c;" a₁ ∧ ∀ b, Denotes "a:=-(b)+1.0*c;" b → b = a₁) ∧
        (Denotes "a:=((-b)+(01*(c)));" a₂ ∧ ∀ b, Denotes "a:=((-b)+(01*(c)));" b → b = a₂) ∧
        (l.equals l = true ↔ a₁ = a₂) ∧ (l = l ↔ a₁ = a₂) := by
  let l : Listing := ⟨#[
    ⟨1, .multiply, .number ⟨0x3FF0000000000000⟩, .identifier "c", some 1⟩,
    ⟨2, .add, .negated (.identifier "b"), .temporary 1, some 2⟩,
    ⟨3, .assign, .identifier "a", .temporary 2, none⟩]⟩
  have h₁ : parse "a:=-(b)+1.0*c;" = .ok l := by decide +kernel
  have h₂ : parse "a:=((-b)+(01*(c)));" = .ok l := by decide +kernel
  exact ⟨l, h₁, h₂, equal_listings_iff_same_syntax h₁ h₂⟩

end ThreeAddress
