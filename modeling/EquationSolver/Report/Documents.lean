import EquationSolver.Linear.Elimination
import EquationSolver.Report.Json
import EquationSolver.Roots.Bisection
import EquationSolver.Roots.Secant

/-!
# Results as documents
-/

namespace EquationSolver.Report

open Roots

def statusName : Status → String
  | .converged => "Converged"
  | .maxIters => "MaxIters"
  | .stoppedByObserver => "StoppedByObserver"

def numberMembers (fields : List (String × Float)) : List (String × Json) :=
  fields.map fun (name, value) => (name, .number value)

def bisectionRecord (r : Bisection.Record Float) : Json :=
  .object (("iter", .count r.iter) ::
    numberMembers [("a", r.a), ("b", r.b), ("c", r.c), ("fc", r.fc), ("error", r.error)])

def secantRecord (r : Secant.Record Float) : Json :=
  .object (("iter", .count r.iter) :: numberMembers
    [("x0", r.x0), ("x1", r.x1), ("fx0", r.fx0), ("fx1", r.fx1), ("x2", r.x2), ("error", r.error)])

/-- The solution of a root finder, given the documents of its records. -/
def rootSolution {ρ : Type} (record : ρ → Json) (solution : Roots.Solution ρ Float) : Json :=
  .object [
    ("status", .text (statusName solution.status)),
    ("root", .number solution.root),
    ("trace", .array (solution.trace.toList.map record))]

def stepDocument : Linear.Step Float → Json
  | .initial => .object [("kind", .text "initial")]
  | .swap row other =>
      .object [("kind", .text "swap"), ("row", .count row), ("with", .count other)]
  | .eliminate target pivotRow factor =>
      .object [("kind", .text "eliminate"), ("target", .count target),
        ("pivot_row", .count pivotRow), ("factor", .number factor)]
  | .backSubstitution => .object [("kind", .text "back_substitution")]
  | .resolved unknown value =>
      .object [("kind", .text "resolved"), ("variable", .count unknown), ("value", .number value)]

def linearSolution (solution : Linear.Solution Float) : Json :=
  .object [
    ("solution", .array (solution.values.map .number)),
    ("steps", .array (solution.steps.map stepDocument))]

def matrixDocument (m : Linear.AugmentedMatrix Float) : Json :=
  .array (m.toLists.map fun row => .array (row.map .number))

/-- The value of a formula at a point, with the members in the order of their names. -/
def evaluation (formula : String) (x value : Float) : Json :=
  .object [("formula", .text formula), ("value", .number value), ("x", .number x)]

end EquationSolver.Report
