import EquationSolver.Scalar

/-!
# Limits of a run

A root finder makes a bounded number of iterations and accepts an estimate whose error lies below a
tolerance.
-/

namespace EquationSolver.Roots

variable {α : Type} [Scalar α]

/-- When a run ends: after so many iterations, or once the error is below the tolerance. -/
structure Limits (α : Type) [Scalar α] where
  maxIters : Nat
  tolerance : α
  maxIters_pos : 0 < maxIters
  tolerance_finite : Scalar.isFinite tolerance = true
  tolerance_nonneg : Scalar.less tolerance Scalar.zero = false

inductive LimitsError
  | maxIters
  | tolerance
deriving DecidableEq, Repr

def LimitsError.message : LimitsError → String
  | .maxIters => "max_iters must be at least 1"
  | .tolerance => "tolerance must be finite and non-negative"

namespace Limits

def defaultMaxIters : Nat := 100

def defaultTolerance : α := 1e-4

/-- The limits that two numbers give, if they are limits. -/
def make (maxIters : Nat) (tolerance : α) : Except LimitsError (Limits α) :=
  if positive : 0 < maxIters then
    if valid : Scalar.isFinite tolerance = true ∧ Scalar.less tolerance Scalar.zero = false then
      .ok ⟨maxIters, tolerance, positive, valid.1, valid.2⟩
    else .error .tolerance
  else .error .maxIters

/-- The limits that hold where none are given. -/
def standard : Limits Float :=
  ⟨defaultMaxIters, defaultTolerance, by decide, by decide, by decide⟩

theorem make_default : make defaultMaxIters defaultTolerance = .ok standard := by
  have valid : Scalar.isFinite (defaultTolerance : Float) = true ∧
      Scalar.less (defaultTolerance : Float) Scalar.zero = false := by decide
  simp [make, valid, standard, defaultMaxIters]

end Limits

end EquationSolver.Roots
