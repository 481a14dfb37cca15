import EquationSolver.Proofs.Formula.Recognition

/-!
# How deep a formula nests

A run of operands counts one level for itself, on top of what its operands count; the right operand of
an operator finds a further level used for every operator of the run up to its own. The parser refuses
a formula for its depth exactly if the formula counts more levels than there are. An implied product
has a level but no token, so that a formula may count one level more than it has tokens, and no more.
-/

namespace EquationSolver.Formula

open EquationSolver.Formula.Parser

namespace Grammar

/-- What the operands of a run count: the first one, and the right operands of the operators in their
order. -/
structure Operands where
  first : Nat
  rights : List Nat

namespace Operands

/-- The count of a run, whose operators are numbered from one. -/
def count (run : Operands) : Nat :=
  (run.rights.zipIdx 1).foldl (fun most (right, i) => max most (1 + i + right)) (1 + run.first)

def followedBy (run : Operands) (right : Nat) : Operands :=
  ⟨run.first, run.rights ++ [right]⟩

@[simp] theorem count_single (first : Nat) : count ⟨first, []⟩ = 1 + first := rfl

private theorem count_followedBy (run : Operands) (right : Nat) :
    (run.followedBy right).count = max run.count (run.rights.length + 2 + right) := by
  simp only [followedBy, count, List.zipIdx_append, List.foldl_append, List.zipIdx_singleton,
    List.foldl_cons, List.foldl_nil]
  omega

end Operands

namespace Derivation

variable {p : Phrase} {ts : List Token} {t : Node}

/-- The operands of a run. A number or a name counts nothing, a group or a call what stands between its
parentheses, and a sign what its operand counts as a run of its own. -/
def operands : {p : Phrase} → {ts : List Token} → {t : Node} → Derivation p ts t → Operands
  | _, _, _, .ofProduct d | _, _, _, .ofSigned d | _, _, _, .ofPower d | _, _, _, .ofAtom d =>
      d.operands
  | _, _, _, .sum _ _ left _ right => left.operands.followedBy right.operands.count
  | _, _, _, .product _ _ left _ right => left.operands.followedBy right.operands.count
  | _, _, _, .juxtaposed left _ right => left.operands.followedBy right.operands.count
  | _, _, _, .power base _ exponent => base.operands.followedBy exponent.operands.count
  | _, _, _, .number .. | _, _, _, .var .. | _, _, _, .pi .. | _, _, _, .euler .. => ⟨0, []⟩
  | _, _, _, .signed _ _ operand => ⟨operand.operands.count, []⟩
  | _, _, _, .group _ inner _ | _, _, _, .call _ _ _ _ inner _ => ⟨inner.operands.count, []⟩

def count (d : Derivation p ts t) : Nat :=
  d.operands.count

/-- A run has as many right operands as operators, and it counts the levels that reading it takes. -/
theorem operands_eq (d : Derivation p ts t) :
    d.operands.rights.length = d.spine ∧ d.operands.count = d.levels := by
  induction d with
  | ofProduct _ ih | ofSigned _ ih | ofPower _ ih | ofAtom _ ih => exact ih
  | sum _ _ _ _ _ ihl ihr | product _ _ _ _ _ ihl ihr | juxtaposed _ _ _ ihl ihr
  | power _ _ _ ihl ihr =>
    constructor
    · simp [operands, Operands.followedBy, spine, ihl.1]
    · rw [operands, Operands.count_followedBy, ihl.1, ihl.2, ihr.2, levels]
  | number | var | pi | euler => exact ⟨rfl, rfl⟩
  | signed _ _ _ ih | group _ _ _ ih | call _ _ _ _ _ _ ih =>
    exact ⟨rfl, by rw [operands, Operands.count_single, ih.2, levels, Nat.add_comm]⟩

private theorem count_eq_levels (d : Derivation p ts t) : d.count = d.levels :=
  d.operands_eq.2

private theorem spine_lt_length (d : Derivation p ts t) : d.spine < ts.length := by
  induction d with
  | ofProduct _ ih | ofSigned _ ih | ofPower _ ih | ofAtom _ ih => exact ih
  | sum _ _ _ _ _ ihl | product _ _ _ _ _ ihl | juxtaposed _ _ _ ihl | power _ _ _ ihl =>
    simp only [spine, List.length_append, List.length_cons]
    omega
  | signed | number | var | pi | euler | group | call => simp [spine]

end Derivation

/-- How many levels a phrase may count beyond its tokens: one, where a product may be implied outside
its operands. -/
def Phrase.unspelled : Phrase → Nat
  | .sum | .product => 1
  | .signed | .power | .atom => 0

private theorem Derivation.levels_le_length {p : Phrase} {ts : List Token} {t : Node}
    (d : Derivation p ts t) :
    d.levels ≤ ts.length + p.unspelled := by
  induction d with
  | ofProduct _ ih | ofPower _ ih | ofAtom _ ih => exact ih
  | ofSigned _ ih => exact Nat.le_succ_of_le ih
  | sum _ _ left _ right ihl ihr | product _ _ left _ right ihl ihr | juxtaposed left _ right ihl ihr =>
    have hspine := left.spine_lt_length
    simp only [levels, Phrase.unspelled, List.length_append, List.length_cons] at *
    omega
  | power base _ _ ihl ihr =>
    have hspine := base.spine_lt_length
    simp only [levels, Phrase.unspelled, List.length_append, List.length_cons] at *
    omega
  | number | var | pi | euler => exact Nat.le_refl 1
  | signed _ _ _ ih | group _ _ _ ih | call _ _ _ _ _ _ ih =>
    simp only [levels, Phrase.unspelled, List.length_append, List.length_cons, List.length_nil] at *
    omega

/-- A formula is too deep to be read exactly if it counts more levels than there are. It counts at most
one more than it has tokens, so none of up to 255 tokens is too deep. -/
theorem Derivation.tooDeep_iff {tokens : List Token} {t : Node} (d : Derivation .sum tokens t) :
    (TooDeep (Formula.parseTokens tokens) ↔ maxDepth < d.count) ∧
      (Formula.parseTokens tokens = .ok t ↔ d.count ≤ maxDepth) ∧
      d.count ≤ tokens.length + 1 ∧
      (tokens.length ≤ 255 → Formula.parseTokens tokens = .ok t) := by
  have hcount := d.count_eq_levels
  have hlength : d.count ≤ tokens.length + 1 := hcount ▸ d.levels_le_length
  obtain ⟨hread, hdeep⟩ := hcount ▸ d.parseTokens
  refine ⟨⟨?_, hdeep⟩, ⟨?_, hread⟩, hlength, ?_⟩
  · rintro ⟨span, hspan⟩
    apply Nat.lt_of_not_le
    intro hle
    cases hspan.symm.trans (hread hle)
  · intro hok
    apply Nat.le_of_not_lt
    intro hlt
    obtain ⟨span, hspan⟩ := hdeep hlt
    cases hok.symm.trans hspan
  · intro hshort
    exact hread (Nat.le_trans hlength (Nat.succ_le_succ hshort))

end Grammar

end EquationSolver.Formula
