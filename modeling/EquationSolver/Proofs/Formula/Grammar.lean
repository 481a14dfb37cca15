import EquationSolver.Formula.Parser

/-!
# The grammar of formulas

Phrases over tokens, from sums down to atoms, and the tree that each derivation stands for.
Parentheses leave no node, and constants become numbers. A derivation also tells how many levels
of the parser's budget it takes to read.
-/

namespace EquationSolver.Formula

def BinaryOp.kind : BinaryOp → Token.Kind
  | .add => .plus
  | .sub => .minus
  | .mul => .star
  | .div => .slash
  | .pow => .caret

def UnaryOp.kind : UnaryOp → Token.Kind
  | .negate => .minus
  | .keep => .plus

namespace Grammar

/-- The phrases of the grammar, from the loosest to the tightest. -/
inductive Phrase
  | sum
  | product
  | signed
  | power
  | atom
deriving DecidableEq, Repr

def Phrase.strength : Phrase → Nat
  | .sum => 2
  | .product => 3
  | .signed => 4
  | .power => 5
  | .atom => 6

def Phrase.loosened : Phrase → Phrase
  | .sum | .product => .sum
  | .signed => .product
  | .power => .signed
  | .atom => .power

/-- Whether an operand that begins with `first` may stand right behind one that ends with `last`,
as the other factor of a product. -/
def Juxtaposed (last : Option Token) (first : Token) : Prop :=
  match first.kind with
  | .name _ | .openParen => True
  | .number _ => ∃ token ∈ last, token.kind = .closeParen
  | _ => False

/-- The derivations of a list of tokens as a phrase, with the tree they stand for. -/
inductive Derivation : Phrase → List Token → Node → Type
  | ofProduct {ts t} (d : Derivation .product ts t) : Derivation .sum ts t
  | sum {ts us a b sign} (op : BinaryOp) (additive : op = .add ∨ op = .sub)
      (left : Derivation .sum ts a) (spelled : sign.kind = op.kind)
      (right : Derivation .product us b) : Derivation .sum (ts ++ sign :: us) (.binary op a b)
  | ofSigned {ts t} (d : Derivation .signed ts t) : Derivation .product ts t
  | product {ts us a b sign} (op : BinaryOp) (multiplicative : op = .mul ∨ op = .div)
      (left : Derivation .product ts a) (spelled : sign.kind = op.kind)
      (right : Derivation .signed us b) : Derivation .product (ts ++ sign :: us) (.binary op a b)
  | juxtaposed {ts us a b first} (left : Derivation .product ts a)
      (meet : Juxtaposed ts.getLast? first) (right : Derivation .power (first :: us) b) :
      Derivation .product (ts ++ first :: us) (.binary .mul a b)
  | signed {ts t sign} (op : UnaryOp) (spelled : sign.kind = op.kind)
      (operand : Derivation .signed ts t) : Derivation .signed (sign :: ts) (.unary op t)
  | ofPower {ts t} (d : Derivation .power ts t) : Derivation .signed ts t
  | ofAtom {ts t} (d : Derivation .atom ts t) : Derivation .power ts t
  | power {ts us a b sign} (base : Derivation .atom ts a) (spelled : sign.kind = .caret)
      (exponent : Derivation .signed us b) :
      Derivation .power (ts ++ sign :: us) (.binary .pow a b)
  | number {token value} (h : token.kind = .number value) :
      Derivation .atom [token] (.number value)
  | var {token} (h : token.kind = .name "x") : Derivation .atom [token] .var
  | pi {token name} (h : token.kind = .name name) (named : name = "pi" ∨ name = "π") :
      Derivation .atom [token] (.number Formula.pi)
  | euler {token} (h : token.kind = .name "e") : Derivation .atom [token] (.number eulerNumber)
  | group {ts t opening closing} (opens : opening.kind = .openParen) (inner : Derivation .sum ts t)
      (closes : closing.kind = .closeParen) : Derivation .atom (opening :: (ts ++ [closing])) t
  | call {ts t token name opening closing} (function : Builtin) (h : token.kind = .name name)
      (known : Builtin.ofName? name = some function) (opens : opening.kind = .openParen)
      (inner : Derivation .sum ts t) (closes : closing.kind = .closeParen) :
      Derivation .atom (token :: opening :: (ts ++ [closing])) (.call function t)

def Derives (p : Phrase) (ts : List Token) (t : Node) : Prop :=
  Nonempty (Derivation p ts t)

namespace Derivation

variable {p : Phrase} {ts : List Token} {t : Node}

/-- The operators of a run that stand outside its operands: those on the left spine of the tree
that no parentheses and no sign cut off. -/
def spine : {p : Phrase} → {ts : List Token} → {t : Node} → Derivation p ts t → Nat
  | _, _, _, .ofProduct d | _, _, _, .ofSigned d | _, _, _, .ofPower d | _, _, _, .ofAtom d =>
      d.spine
  | _, _, _, .sum _ _ left _ _ | _, _, _, .product _ _ left _ _ | _, _, _, .juxtaposed left _ _ =>
      left.spine + 1
  | _, _, _, .power base _ _ => base.spine + 1
  | _, _, _, .signed .. | _, _, _, .number .. | _, _, _, .var .. | _, _, _, .pi ..
  | _, _, _, .euler .. | _, _, _, .group .. | _, _, _, .call .. => 0

/-- The levels of the budget that reading takes. The first operand of a run and its `i`-th
operator find the run's own level used, and the operator also the `i` operators up to itself. -/
def levels : {p : Phrase} → {ts : List Token} → {t : Node} → Derivation p ts t → Nat
  | _, _, _, .ofProduct d | _, _, _, .ofSigned d | _, _, _, .ofPower d | _, _, _, .ofAtom d =>
      d.levels
  | _, _, _, .sum _ _ left _ right => max left.levels (left.spine + 2 + right.levels)
  | _, _, _, .product _ _ left _ right => max left.levels (left.spine + 2 + right.levels)
  | _, _, _, .juxtaposed left _ right => max left.levels (left.spine + 2 + right.levels)
  | _, _, _, .power base _ exponent => max base.levels (base.spine + 2 + exponent.levels)
  | _, _, _, .number .. | _, _, _, .var .. | _, _, _, .pi .. | _, _, _, .euler .. => 1
  | _, _, _, .signed _ _ operand => operand.levels + 1
  | _, _, _, .group _ inner _ | _, _, _, .call _ _ _ _ inner _ => inner.levels + 1

theorem exists_first (d : Derivation p ts t) :
    ∃ first us, ts = first :: us ∧ first.closes = false := by
  induction d with
  | ofProduct _ ih | ofSigned _ ih | ofPower _ ih | ofAtom _ ih => exact ih
  | sum _ _ _ _ _ ih | product _ _ _ _ _ ih | juxtaposed _ _ _ ih | power _ _ _ ih =>
    obtain ⟨first, us, rfl, hf⟩ := ih
    exact ⟨first, _, rfl, hf⟩
  | signed op h =>
    refine ⟨_, _, rfl, ?_⟩
    cases op <;> simp [Token.closes, h, UnaryOp.kind]
  | number h | var h | pi h | euler h | group h | call _ h =>
    exact ⟨_, _, rfl, by simp [Token.closes, h]⟩

theorem ne_nil (d : Derivation p ts t) : ts ≠ [] := by
  obtain ⟨first, us, rfl, -⟩ := d.exists_first
  simp

theorem levels_pos (d : Derivation p ts t) : 0 < d.levels := by
  induction d with
  | ofProduct _ ih | ofSigned _ ih | ofPower _ ih | ofAtom _ ih => exact ih
  | sum | product | juxtaposed | power => simp only [levels]; omega
  | number | var | pi | euler | signed | group | call => simp [levels]

theorem exists_loosened (d : Derivation p ts t) :
    ∃ e : Derivation p.loosened ts t, e.levels = d.levels ∧ e.spine = d.spine := by
  cases p with
  | sum => exact ⟨d, rfl, rfl⟩
  | product => exact ⟨.ofProduct d, rfl, rfl⟩
  | signed => exact ⟨.ofSigned d, rfl, rfl⟩
  | power => exact ⟨.ofPower d, rfl, rfl⟩
  | atom => exact ⟨.ofAtom d, rfl, rfl⟩

/-- A tighter phrase is also a looser one, with the same operators outside its operands. -/
theorem exists_looser {q : Phrase} (d : Derivation p ts t) (h : q.strength ≤ p.strength) :
    ∃ e : Derivation q ts t, e.levels = d.levels ∧ e.spine = d.spine := by
  induction hk : p.strength - q.strength generalizing p with
  | zero =>
    obtain rfl : p = q := by cases p <;> cases q <;> simp_all [Phrase.strength]
    exact ⟨d, rfl, rfl⟩
  | succ k ih =>
    have hstep : p.loosened.strength + 1 = p.strength := by
      cases p <;> cases q <;> simp_all [Phrase.strength, Phrase.loosened]
    obtain ⟨e, hl, hs⟩ := d.exists_loosened
    obtain ⟨f, hl', hs'⟩ := ih e (by omega) (by omega)
    exact ⟨f, hl'.trans hl, hs'.trans hs⟩

end Derivation

theorem Derives.looser {p q : Phrase} {ts : List Token} {t : Node} (h : Derives p ts t)
    (hle : q.strength ≤ p.strength) : Derives q ts t := by
  obtain ⟨d⟩ := h
  obtain ⟨e, -, -⟩ := d.exists_looser hle
  exact ⟨e⟩

end Grammar

end EquationSolver.Formula
