import EquationSolver.Proofs.Floats.Midpoint
import EquationSolver.Proofs.Floats.Range
import EquationSolver.Proofs.Floats.Signs

/-!
# Floats of equal numbers

Two floats that stand for the same number are the same, but for the sign of zero. So the number of a
result depends only on the numbers it is formed from: an operation on a zero is exact.
-/

namespace EquationSolver.Floats

open Float.Model Decimal

variable {x x' y y' : Float}

private theorem eq_of_value_eq (hx : x.isFinite = true) (hx' : x'.isFinite = true) (h : value x = value x')
    (hne : value x ≠ 0) : x = x' := by
  have hproper := proper_unpack hx
  have hunpack : x'.toModel.unpack = x.toModel.unpack := by
    rw [value] at h hne
    cases hu : x.toModel.unpack with
    | infinity | notANumber =>
      rw [hu] at hproper
      exact hproper.elim
    | zero =>
      rw [hu] at hne
      exact absurd rfl hne
    | finite sign M E hM =>
      rw [hu] at hproper h
      apply unpack_eq_of_value_eq hproper hx'
      rw [← h, unpackedValue_finite]
  rw [← ofUnpacked_unpack hx, ← ofUnpacked_unpack hx', hunpack]

theorem value_one : value 1 = 1 := by
  have hunpack : (1 : Float).toModel.unpack = .finite .positive (2 ^ 52) (-52) (by norm_num) := rfl
  rw [value, hunpack, unpackedValue_positive]
  norm_num

theorem value_sub_of_zero (hx : x.isFinite = true) (hy : y.isFinite = true)
    (hzero : value x = 0 ∨ value y = 0) : value (x - y) = value x - value y := by
  have hboth : Representable (value x - value y) ∧ |value x - value y| < 2 ^ (1024 : ℤ) := by
    rcases hzero with hzero | hzero
    · rw [hzero, zero_sub, abs_neg]
      exact ⟨(representable_value hy).1.neg, (representable_value hy).2⟩
    · rw [hzero, sub_zero]
      exact representable_value hx
  exact ((rounded_sub hx hy).exact hboth.1 hboth.2).2

theorem value_mul_of_zero (hx : x.isFinite = true) (hy : y.isFinite = true) (hzero : value x = 0) :
    value (x * y) = 0 := by
  have hrounded := rounded_mul hx hy
  rw [hzero, zero_mul] at hrounded
  exact (hrounded.exact representable_zero (by simp)).2

theorem value_div_of_zero (hx : x.isFinite = true) (hy : y.isFinite = true) (hne : value y ≠ 0)
    (hzero : value x = 0) : value (x / y) = 0 := by
  have hrounded := rounded_div hx hy hne
  rw [hzero, zero_div] at hrounded
  exact (hrounded.exact representable_zero (by simp)).2

section Congruence

variable (hx : x.isFinite = true) (hx' : x'.isFinite = true) (h : value x = value x')
include hx hx' h

theorem value_sub_congr (hy : y.isFinite = true) (hy' : y'.isFinite = true)
    (hsame : value y = value y') : value (x - y) = value (x' - y') := by
  by_cases hzero : value x = 0 ∨ value y = 0
  · have hzero' : value x' = 0 ∨ value y' = 0 := by rwa [← h, ← hsame]
    rw [value_sub_of_zero hx hy hzero, value_sub_of_zero hx' hy' hzero', h, hsame]
  · obtain ⟨hxne, hyne⟩ := not_or.mp hzero
    obtain rfl := eq_of_value_eq hx hx' h hxne
    obtain rfl := eq_of_value_eq hy hy' hsame hyne
    rfl

theorem value_mul_congr (hy : y.isFinite = true) : value (x * y) = value (x' * y) := by
  by_cases hzero : value x = 0
  · rw [value_mul_of_zero hx hy hzero, value_mul_of_zero hx' hy (h ▸ hzero)]
  · obtain rfl := eq_of_value_eq hx hx' h hzero
    rfl

theorem value_div_congr (hy : y.isFinite = true) (hne : value y ≠ 0) :
    value (x / y) = value (x' / y) := by
  by_cases hzero : value x = 0
  · rw [value_div_of_zero hx hy hne hzero, value_div_of_zero hx' hy hne (h ▸ hzero)]
  · obtain rfl := eq_of_value_eq hx hx' h hzero
    rfl

theorem value_div_self (hne : value x' ≠ 0) : value (x / x') = 1 := by
  have hrounded := rounded_div hx hx' hne
  rw [h, div_self hne] at hrounded
  have hsmall : |(1 : ℚ)| < 2 ^ (1024 : ℤ) := by
    rw [abs_one]
    exact one_lt_zpow₀ one_lt_two (by norm_num)
  exact (hrounded.exact representable_one hsmall).2

theorem value_sub_self : value (x - x') = 0 := by
  have hrounded := rounded_sub hx hx'
  rw [h, sub_self] at hrounded
  exact (hrounded.exact representable_zero (by simp)).2

end Congruence

theorem value_one_mul (hx : x.isFinite = true) (hy : y.isFinite = true) (hone : value x = 1) :
    value (x * y) = value y := by
  have hrounded := rounded_mul hx hy
  rw [hone, one_mul] at hrounded
  exact (hrounded.exact (representable_value hy).1 (representable_value hy).2).2

end EquationSolver.Floats
