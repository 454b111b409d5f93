import ThreeAddress.Proofs.Words

/-!
# The grammar of statements

    Statement := Word ":=" Sum ";"
    Sum       := Product { ("+" | "-") Product }
    Product   := Atom { ("*" | "/") Atom }
    Atom      := "(" Sum ")" | "-" Atom | Word

Derivations are data: a phrase is a derivation tree of one of the kinds above, with the text that
it derives, the abstract syntax that it stands for, and how deep brackets and changes of sign
nest in it. Sums and products differ in their level only. No text has two derivations, so the
abstract syntax of a statement is well defined.
-/
namespace ThreeAddress.Grammar
open Text

/-- The kinds of phrases: atoms, and chains of operands joined by operators of one level. -/
inductive Kind where
  | atom
  | chain (level : Precedence)

/-- The operands of a level: a sum joins products, a product joins atoms. -/
def operandKind : Precedence → Kind
  | .sum => .chain .product
  | .product => .atom

mutual

/-- Derivations of phrases. -/
inductive Phrase : Kind → Type where
  | word (w : Word) : Phrase .atom
  | bracketed (inner : Phrase (.chain .sum)) : Phrase .atom
  | signed (inner : Phrase .atom) : Phrase .atom
  | chain {level : Precedence} (first : Phrase (operandKind level)) (rest : Tail level) :
      Phrase (.chain level)

/-- Derivations of what follows the first operand of a chain. -/
inductive Tail : Precedence → Type where
  | done {level : Precedence} : Tail level
  | more {level : Precedence} (op : BinaryOperator) (known : op.level = level)
      (right : Phrase (operandKind level)) (rest : Tail level) : Tail level

end

mutual

def Phrase.text {k : Kind} : Phrase k → List Char
  | .word w => w.text
  | .bracketed inner => '(' :: (inner.text ++ [')'])
  | .signed inner => '-' :: inner.text
  | .chain first rest => first.text ++ rest.text

def Tail.text {level : Precedence} : Tail level → List Char
  | .done => []
  | .more op _ right rest => op.sign :: (right.text ++ rest.text)

end

mutual

/-- The most brackets and changes of sign that enclose one place of the phrase. -/
def Phrase.nesting {k : Kind} : Phrase k → Nat
  | .word _ => 0
  | .bracketed inner => inner.nesting + 1
  | .signed inner => inner.nesting + 1
  | .chain first rest => max first.nesting rest.nesting

def Tail.nesting {level : Precedence} : Tail level → Nat
  | .done => 0
  | .more _ _ right rest => max right.nesting rest.nesting

end

mutual

/-- The abstract syntax of a phrase. -/
def Phrase.expr {k : Kind} : Phrase k → Expr
  | .word w => .term w.term
  | .bracketed inner => inner.expr
  | .signed inner => .negation inner.expr
  | .chain first rest => rest.expr first.expr

/-- The abstract syntax of a chain that goes on after `left`: operators group to the left. -/
def Tail.expr {level : Precedence} (left : Expr) : Tail level → Expr
  | .done => left
  | .more op _ right rest => rest.expr (.operation op left right.expr)

end

/-- A derivation of a whole statement. -/
structure Sentence where
  target : Word
  value : Phrase (.chain .sum)

namespace Sentence

def text (d : Sentence) : List Char :=
  d.target.text ++ (":=".toList ++ (d.value.text ++ ";".toList))

def nesting (d : Sentence) : Nat := d.value.nesting

def assignment (d : Sentence) : Assignment := ⟨d.target.term, d.value.expr⟩

end Sentence

/-- The statement with the abstract syntax `a` can be written as `source`. -/
def Denotes (source : String) (a : Assignment) : Prop :=
  ∃ d : Sentence, d.text = source.toList ∧ d.assignment = a

/-! ## What may follow a phrase -/

/-- Whether operators of a level can go on with a phrase of a kind. -/
def Kind.joins : Kind → Precedence → Prop
  | .atom, _ => False
  | .chain .product, level => level = .product
  | .chain .sum, _ => True

/-- The text goes on with no word and with no operator that would belong to the phrase. -/
structure Stops (k : Kind) (rest : List Char) : Prop where
  apart : Apart rest
  sign : ∀ op : BinaryOperator, k.joins op.level → rest.head? ≠ some op.sign

lemma joins_self (level : Precedence) : (Kind.chain level).joins level := by
  cases level <;> trivial

lemma joins_of_operandKind {level l : Precedence} (h : (operandKind level).joins l) :
    (Kind.chain level).joins l := by
  cases level with
  | sum => trivial
  | product => exact h.elim

lemma not_joins_operandKind (level : Precedence) : ¬(operandKind level).joins level := by
  cases level with
  | sum => exact nofun
  | product => exact id

/-- Different operators have different signs. -/
lemma sign_injective {op op' : BinaryOperator} (h : op.sign = op'.sign) : op = op' := by
  revert h
  cases op <;> cases op' <;> decide

lemma Stops.operand {level : Precedence} {rest : List Char} (h : Stops (.chain level) rest) :
    Stops (operandKind level) rest :=
  ⟨h.apart, fun op hop => h.sign op (joins_of_operandKind hop)⟩

/-- Signs, closing brackets, colons and semicolons end every word. -/
lemma apart_cons {c : Char} (h : c ∈ ['+', '-', '*', '/', ')', ':', ';']) (rest : List Char) :
    Apart (c :: rest) := by
  intro d hd
  obtain rfl : c = d := Option.some.inj hd
  simp only [List.mem_cons, List.not_mem_nil, or_false] at h
  rcases h with rfl | rfl | rfl | rfl | rfl | rfl | rfl <;> decide

lemma stops_sign {op : BinaryOperator} {level : Precedence} (h : op.level = level)
    (rest : List Char) : Stops (operandKind level) (op.sign :: rest) := by
  refine ⟨apart_cons (by cases op <;> decide) rest, fun op' hop' heq => ?_⟩
  obtain rfl := sign_injective (Option.some.inj heq)
  exact not_joins_operandKind level (h ▸ hop')

lemma stops_cons {c : Char} (h : c ∈ [')', ':', ';']) (k : Kind) (rest : List Char) :
    Stops k (c :: rest) := by
  refine ⟨apart_cons (List.mem_append_right ['+', '-', '*', '/'] h) rest, fun op _ heq => ?_⟩
  obtain rfl := Option.some.inj heq
  cases op <;> exact absurd h (by decide)

/-- An operand of a chain is followed by an operator of the level or by what follows the chain. -/
lemma Tail.stops {level : Precedence} (q : Tail level) {rest : List Char}
    (h : Stops (.chain level) rest) : Stops (operandKind level) (q.text ++ rest) := by
  cases q with
  | done => exact h.operand
  | more op known right more =>
    rw [Tail.text, List.cons_append]
    exact stops_sign known _

/-- An operand of a chain that goes on is followed by an operator of the level. -/
lemma Tail.stops_append_sign {level : Precedence} (q : Tail level) {op : BinaryOperator}
    (known : op.level = level) (rest : List Char) :
    Stops (operandKind level) (q.text ++ op.sign :: rest) := by
  cases q with
  | done => exact stops_sign known rest
  | more op' known' right more =>
    rw [Tail.text, List.cons_append]
    exact stops_sign known' _

mutual

/-- The text does not go on with the phrase. This depends on the last word and on the levels that
are open at the end: what follows a closing bracket is free. -/
def Phrase.Ends {k : Kind} : Phrase k → List Char → Prop
  | .word w, rest => w.Ends rest
  | .bracketed _, _ => True
  | .signed inner, rest => inner.Ends rest
  | .chain first more, rest => first.Ends (more.text ++ rest) ∧ more.Ends rest

def Tail.Ends {level : Precedence} : Tail level → List Char → Prop
  | .done, rest => ∀ op : BinaryOperator, op.level = level → rest.head? ≠ some op.sign
  | .more _ _ right more, rest => right.Ends (more.text ++ rest) ∧ more.Ends rest

end

mutual

lemma Phrase.ends_of_stops {k : Kind} {rest : List Char} :
    ∀ p : Phrase k, Stops k rest → p.Ends rest
  | .word w, h => h.apart.ends w
  | .bracketed _, _ => by rw [Phrase.Ends]; trivial
  | .signed inner, h => by
    rw [Phrase.Ends]
    exact inner.ends_of_stops h
  | .chain first more, h => by
    rw [Phrase.Ends]
    exact ⟨first.ends_of_stops (more.stops h), more.ends_of_stops h⟩

lemma Tail.ends_of_stops {level : Precedence} {rest : List Char} :
    ∀ q : Tail level, Stops (.chain level) rest → q.Ends rest
  | .done, h => by
    rw [Tail.Ends]
    exact fun op hop => h.sign op (hop ▸ joins_self _)
  | .more op known right more, h => by
    rw [Tail.Ends]
    exact ⟨right.ends_of_stops (more.stops h), more.ends_of_stops h⟩

end

/-! ## One derivation for each text -/

lemma word_text_ne {w : Word} {c : Char} (h : c = '(' ∨ c = '-') {r cs : List Char} :
    w.text ++ r ≠ c :: cs := by
  intro heq
  obtain ⟨d, ds, hd, hstart⟩ := w.exists_text_eq_cons
  rw [hd, List.cons_append] at heq
  obtain rfl := (List.cons.inj heq).1
  exact h.elim hstart.ne_bracket_and_ne_minus.1 hstart.ne_bracket_and_ne_minus.2

mutual

/-- A phrase can be told from what follows it in one way only. -/
theorem Phrase.text_unique {k : Kind} {r t : List Char} : ∀ p q : Phrase k,
    p.text ++ r = q.text ++ t → Stops k r → Stops k t → p = q ∧ r = t
  | .word v, .word w, h, hr, ht => by
    obtain ⟨rfl, hrest⟩ := Word.text_unique h hr.apart ht.apart
    exact ⟨rfl, hrest⟩
  | .word _, .bracketed _, h, _, _ => absurd h (word_text_ne (.inl rfl))
  | .word _, .signed _, h, _, _ => absurd h (word_text_ne (.inr rfl))
  | .bracketed _, .word _, h, _, _ => absurd h.symm (word_text_ne (.inl rfl))
  | .signed _, .word _, h, _, _ => absurd h.symm (word_text_ne (.inr rfl))
  | .bracketed _, .signed _, h, _, _ => absurd (List.cons.inj h).1 (by decide)
  | .signed _, .bracketed _, h, _, _ => absurd (List.cons.inj h).1 (by decide)
  | .bracketed p, .bracketed q, h, _, _ => by
    simp only [Phrase.text, List.cons_append, List.append_assoc, List.cons.injEq, true_and] at h
    obtain ⟨rfl, hrest⟩ := Phrase.text_unique p q h (stops_cons (by simp) _ _)
      (stops_cons (by simp) _ _)
    exact ⟨rfl, (List.cons.inj hrest).2⟩
  | .signed p, .signed q, h, hr, ht => by
    simp only [Phrase.text, List.cons_append, List.cons.injEq, true_and] at h
    obtain ⟨rfl, hrest⟩ := Phrase.text_unique p q h hr ht
    exact ⟨rfl, hrest⟩
  | .chain first rest, .chain first' rest', h, hr, ht => by
    simp only [Phrase.text, List.append_assoc] at h
    obtain ⟨rfl, htail⟩ := Phrase.text_unique first first' h (rest.stops hr) (rest'.stops ht)
    obtain ⟨rfl, hrest⟩ := Tail.text_unique rest rest' htail hr ht
    exact ⟨rfl, hrest⟩

theorem Tail.text_unique {level : Precedence} {r t : List Char} : ∀ p q : Tail level,
    p.text ++ r = q.text ++ t → Stops (.chain level) r → Stops (.chain level) t → p = q ∧ r = t
  | .done, .done, h, _, _ => ⟨rfl, h⟩
  | .done, .more op known right rest, h, hr, _ => by
    -- What follows the shorter chain would have to go on with it.
    simp only [Tail.text, List.nil_append, List.cons_append] at h
    exact absurd (by rw [h]; rfl) (hr.sign op (known ▸ joins_self _))
  | .more op known right rest, .done, h, _, ht => by
    simp only [Tail.text, List.nil_append, List.cons_append] at h
    exact absurd (by rw [← h]; rfl) (ht.sign op (known ▸ joins_self _))
  | .more op known right rest, .more op' known' right' rest', h, hr, ht => by
    simp only [Tail.text, List.cons_append, List.append_assoc, List.cons.injEq] at h
    obtain ⟨hsign, h⟩ := h
    obtain rfl := sign_injective hsign
    obtain ⟨rfl, htail⟩ := Phrase.text_unique right right' h (rest.stops hr) (rest'.stops ht)
    obtain ⟨rfl, hrest⟩ := Tail.text_unique rest rest' htail hr ht
    exact ⟨rfl, hrest⟩

end

/-- A text has at most one derivation. -/
theorem Sentence.text_injective {d d' : Sentence} (h : d.text = d'.text) : d = d' := by
  obtain ⟨target, value⟩ := d
  obtain ⟨target', value'⟩ := d'
  obtain ⟨rfl, h⟩ := Word.text_unique h (apart_cons (by decide) _) (apart_cons (by decide) _)
  obtain ⟨rfl, -⟩ := Phrase.text_unique value value' (List.append_cancel_left h)
    (stops_cons (by decide) _ _) (stops_cons (by decide) _ _)
  rfl

/-- The abstract syntax of a text is determined by the text. -/
theorem Denotes.unique {source : String} {a b : Assignment} (ha : Denotes source a)
    (hb : Denotes source b) : a = b := by
  obtain ⟨d, hd, rfl⟩ := ha
  obtain ⟨d', hd', rfl⟩ := hb
  rw [Sentence.text_injective (hd.trans hd'.symm)]

end ThreeAddress.Grammar
