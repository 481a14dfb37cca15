import Mathlib.Algebra.Order.Field.Rat
import EquationSolver.Scalar

/-!
# Exact numbers

What the operations of a scalar are on the rationals: the absolute value, and the sign.
-/

namespace EquationSolver.Rationals

theorem magnitude_eq_abs (q : ℚ) : Scalar.magnitude q = |q| := by
  change (if 0 ≤ q then q else -q) = |q|
  split
  · next h => exact (abs_of_nonneg h).symm
  · next h => exact (abs_of_neg (not_le.mp h)).symm

theorem less_eq_true_iff {p q : ℚ} : Scalar.less p q = true ↔ p < q :=
  decide_eq_true_iff

theorem less_eq_false_iff {p q : ℚ} : Scalar.less p q = false ↔ q ≤ p :=
  decide_eq_false_iff_not.trans not_lt

theorem sign_of_pos {q : ℚ} (h : 0 < q) : Sign.of q = .positive :=
  if_pos (less_eq_true_iff.mpr h)

theorem sign_of_neg {q : ℚ} (h : q < 0) : Sign.of q = .negative := by
  have hpos : ¬ Scalar.less Scalar.zero q = true := by
    rw [less_eq_true_iff]
    exact h.not_gt
  exact (if_neg hpos).trans (if_pos (less_eq_true_iff.mpr h))

theorem sign_of_zero : Sign.of (0 : ℚ) = .zero := rfl

end EquationSolver.Rationals
