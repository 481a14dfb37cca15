import EquationSolver.Linear.Elimination
import EquationSolver.Roots.Bisection
import EquationSolver.Roots.Secant

/-!
# Results as plain text

Tables of iterations and matrices have right-aligned columns. A number that is too wide for its
column is written in full and moves what follows.
-/

namespace EquationSolver.Report

open Roots

/-- Records that fill a row of a table behind the number of their iteration. -/
class Tabular (ρ : Type) extends IterationRecord ρ Float where
  headers : List String
  values : ρ → List Float

instance : Tabular (Bisection.Record Float) where
  headers := ["a", "b", "c", "f(c)", "Error"]
  values r := [r.a, r.b, r.c, r.fc, r.error]

instance : Tabular (Secant.Record Float) where
  headers := ["x0", "x1", "f(x0)", "f(x1)", "x2", "Error"]
  values r := [r.x0, r.x1, r.fx0, r.fx1, r.x2, r.error]

def iterationWidth : Nat := 9

def numberWidth : Nat := 14

/-- A line of a table: the first field, and the fields of the columns of numbers. -/
def tableLine (first : String) (fields : List String) : String :=
  Decimal.rightAlign iterationWidth first ++
    String.join (fields.map (Decimal.rightAlign numberWidth)) ++ "\n"

section Records

variable {ρ : Type} [Tabular ρ]

def recordLine (r : ρ) : String :=
  tableLine (toString (IterationRecord.iter r)) ((Tabular.values r).map (Decimal.fixed 6))

/-- The table of a run: a line of headers, and a line for each record. -/
def table (trace : Array ρ) : String :=
  tableLine "Iteration" (Tabular.headers ρ) ++ String.join (trace.toList.map recordLine)

/-- What a run found, in one line. -/
def summary (solution : Roots.Solution ρ Float) : String :=
  let estimate := match solution.status with
    | .converged => "Root found: "
    | .maxIters => "Iteration limit reached, last estimate: "
    | .stoppedByObserver => "Stopped early, last estimate: "
  let effort := match solution.trace.back? with
    | none => ""
    | some last =>
        s!" after {IterationRecord.iter last} iterations (error " ++
          Decimal.fixedExponent 2 (IterationRecord.error last) ++ ")"
  estimate ++ Decimal.fixed 6 solution.root ++ effort

end Records

/-- The log of an elimination, its entries numbered from one. -/
def stepLog (steps : List (Linear.Step Float)) : String :=
  String.join (steps.zipIdx.map fun (step, i) =>
    Decimal.rightAlign 3 (toString (i + 1)) ++ ". " ++ step.text ++ "\n")

/-- The values of the unknowns, a line for each. -/
def unknowns (values : List Float) : String :=
  String.join (values.zipIdx.map fun (value, i) => s!"x{i + 1} = " ++ Decimal.fixed 6 value ++ "\n")

def matrixField (value : Float) : String :=
  Decimal.rightAlign 10 (Decimal.fixed 4 value)

/-- A row of a matrix, with a bar in front of the constant. -/
def matrixLine {n : Nat} (row : Vector Float (n + 1)) : String :=
  String.join (row.toList.dropLast.map matrixField) ++ " |" ++ matrixField (row.get (Fin.last n))

def matrixText (m : Linear.AugmentedMatrix Float) : String :=
  "\n".intercalate (m.rows.toList.map matrixLine)

end EquationSolver.Report
