import EquationSolver.Roots.Limits

/-!
# Runs

What the root finders share: models, observers, and the outcome of a run.
-/

namespace EquationSolver.Roots

/-- A function whose root is sought. At a point it has a value, or fails with an error. -/
abbrev Model (ε α : Type) := α → Except ε α

/-- What an observer answers to a record. -/
inductive Directive
  | proceed
  | stopEarly
deriving DecidableEq, Repr

/-- Sees each record of a run as it is made: from its state and the record, its next state and an
answer. -/
abbrev Observer (σ ρ : Type) := σ → ρ → σ × Directive

/-- The observer that answers nothing and remembers nothing. -/
def Observer.silent {ρ : Type} : Observer Unit ρ :=
  fun _ _ => ((), .proceed)

/-- How a run ended that returned an estimate. -/
inductive Status
  | converged
  | maxIters
  | stoppedByObserver
deriving DecidableEq, Repr

/-- The estimate that a run returned, and all its records in order. -/
structure Solution (ρ α : Type) where
  status : Status
  root : α
  trace : Array ρ
deriving Repr

namespace Solution

variable {ρ α : Type}

def isConverged (solution : Solution ρ α) : Bool :=
  solution.status == .converged

def iters (solution : Solution ρ α) : Nat :=
  solution.trace.size

end Solution

/-- What the records of all methods have in common. -/
class IterationRecord (ρ : Type) (α : outParam Type) where
  /-- The number of the iteration, counted from one. -/
  iter : ρ → Nat
  /-- The error that is compared with the tolerance. -/
  error : ρ → α

/-- A run that ended: the start it was accepted with if it got that far, the records it made, the
last state of its observer, and what it returned. -/
structure Run (κ ρ σ ε α : Type) where
  start? : Option κ
  records : Array ρ
  observer : σ
  result : Except ε (Solution ρ α)

end EquationSolver.Roots
