/-!
# Scalars

The numerical methods of this library are written once and run on any arithmetic that offers the
four operations, an order and a test for finite values. Two instances are given: floating point,
on which the methods run, and exact rationals, on which their mathematics can be read off.
-/

namespace EquationSolver

/-- Arithmetic that a numerical method can run on. -/
class Scalar (α : Type) extends Add α, Sub α, Mul α, Div α, OfScientific α where
  zero : α
  two : α
  /-- The sum of no terms. In floating point it is the negative zero, the neutral element of addition. -/
  emptySum : α
  magnitude : α → α
  /-- Whether the first value lies strictly below the second. -/
  less : α → α → Bool
  isFinite : α → Bool
  isFinite_zero : isFinite zero = true

instance : Scalar Float where
  zero := 0.0
  two := 2.0
  emptySum := -0.0
  magnitude := Float.abs
  less := fun x y => decide (x < y)
  isFinite := Float.isFinite
  isFinite_zero := by decide

instance : Scalar Rat where
  zero := 0
  two := 2
  emptySum := 0
  magnitude := Rat.abs
  less := fun x y => decide (x < y)
  isFinite := fun _ => true
  isFinite_zero := rfl

namespace Scalar

variable {α : Type} [Scalar α]

/-- The sum of a list, taken from its head on. -/
def sum (terms : List α) : α :=
  terms.foldl (· + ·) emptySum

@[simp] theorem sum_nil : sum ([] : List α) = emptySum := rfl

/-- The first entry of a list that is not finite, with its position. -/
def firstNonFinite? (values : List α) : Option (α × Nat) :=
  values.zipIdx.find? fun entry => !isFinite entry.1

theorem firstNonFinite?_eq_none_iff {values : List α} :
    firstNonFinite? values = none ↔ ∀ v ∈ values, isFinite v = true := by
  constructor
  · intro h v hv
    obtain ⟨i, hi, rfl⟩ := List.mem_iff_getElem.mp hv
    have := List.find?_eq_none.mp h (values[i], i) (List.mk_mem_zipIdx_iff_getElem?.mpr (by simp))
    simpa using this
  · intro h
    refine List.find?_eq_none.mpr fun entry he => ?_
    have := h entry.1 (List.fst_mem_of_mem_zipIdx he)
    simp [this]

end Scalar

/-- The sign of a value, with zero kept apart. A value that is not a number has the sign of zero. -/
inductive Sign
  | negative
  | zero
  | positive
deriving DecidableEq, Repr

def Sign.of {α : Type} [Scalar α] (value : α) : Sign :=
  if Scalar.less Scalar.zero value then .positive
  else if Scalar.less value Scalar.zero then .negative
  else .zero

end EquationSolver
