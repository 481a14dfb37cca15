import EquationSolver.Formula.Lexer
import EquationSolver.Journal.Entry
import EquationSolver.Linear.Elimination
import EquationSolver.Roots.Bisection
import EquationSolver.Roots.Secant
import EquationSolver.Text.Quoted

/-!
# What computations log

The log of reading a formula, of a run of a root finder and of an elimination, told from their
results.
-/

namespace EquationSolver.Journal

/-- Records write a point in every number, and an exponent for the very great and the very small. -/
def recordNumber : Decimal.Style := ⟨.between (-4) 15, ".0", false, .up⟩

/-- A record as a name and named numbers. -/
def recordText (iter : Nat) (fields : List (String × Float)) : String :=
  let fields := ("iter", toString iter) :: fields.map fun (name, value) => (name, recordNumber.text value)
  "Record \x7b " ++ ", ".intercalate (fields.map fun (name, value) => name ++ ": " ++ value) ++ " \x7d"

/-- What reading a formula logs: the number of its tokens, if it is made of tokens. -/
def ofFormula (source : String) : List Entry :=
  match Formula.tokenize source with
  | .error _ => []
  | .ok tokens =>
      [⟨.trace, "numkit_expr::parser",
        "tokenized " ++ Text.quoted source ++ s!" into {tokens.length} tokens"⟩]

section Roots

open Roots

variable {ε σ : Type}

/-- What a run of bisection logs. After each record stand the entries that its observer adds. -/
def ofBisection (limits : Limits Float) (noted : Bisection.Record Float → List Entry)
    (run : Run (Bisection.Interval Float) (Bisection.Record Float) σ (Bisection.Error ε Float) Float) :
    List Entry :=
  match run.start? with
  | none => []
  | some interval =>
      begun interval :: run.records.toList.flatMap (fun r => made r :: noted r) ++ ended
where
  entry (level : Level) (text : String) : Entry := ⟨level, "numkit_solvers::equation::bisection", text⟩
  begun (interval : Bisection.Interval Float) : Entry :=
    entry .debug ("bisection on [" ++ Decimal.text interval.a ++ ", " ++ Decimal.text interval.b ++
      "], tolerance " ++ Decimal.text limits.tolerance ++ s!", at most {limits.maxIters} iterations")
  made (r : Bisection.Record Float) : Entry :=
    entry .trace ("bisection " ++ recordText r.iter
      [("a", r.a), ("b", r.b), ("c", r.c), ("fc", r.fc), ("error", r.error)])
  ended : List Entry :=
    match run.result with
    | .error _ => []
    | .ok solution =>
        match solution.status with
        | .converged =>
            [entry .debug ("bisection converged to " ++ Decimal.text solution.root ++
              s!" after {solution.iters} iterations")]
        | .stoppedByObserver =>
            [entry .debug s!"bisection stopped by observer after {solution.iters} iterations"]
        | .maxIters =>
            [entry .debug s!"bisection reached {limits.maxIters} iterations without converging"]

/-- What a run of the secant method logs. After each record stand the entries that its observer
adds. -/
def ofSecant (limits : Limits Float) (noted : Secant.Record Float → List Entry)
    (run : Run (Float × Float) (Secant.Record Float) σ (Secant.Error ε Float) Float) : List Entry :=
  match run.start? with
  | none => []
  | some (x0, x1) => begun x0 x1 :: run.records.toList.flatMap (fun r => made r :: noted r) ++ ended
where
  entry (level : Level) (text : String) : Entry := ⟨level, "numkit_solvers::equation::secant", text⟩
  begun (x0 x1 : Float) : Entry :=
    entry .debug ("secant from x0 = " ++ Decimal.text x0 ++ ", x1 = " ++ Decimal.text x1 ++
      ", tolerance " ++ Decimal.text limits.tolerance ++ s!", at most {limits.maxIters} iterations")
  made (r : Secant.Record Float) : Entry :=
    entry .trace ("secant " ++ recordText r.iter
      [("x0", r.x0), ("x1", r.x1), ("fx0", r.fx0), ("fx1", r.fx1), ("x2", r.x2), ("error", r.error)])
  ended : List Entry :=
    match run.result with
    | .error (.degenerate iter _ _ fx0 fx1 _) =>
        [entry .debug (s!"secant degenerate at iteration {iter}: f(x1) - f(x0) = " ++
          Decimal.text (fx1 - fx0))]
    | .error _ => []
    | .ok solution =>
        match solution.status with
        | .converged =>
            [entry .debug ("secant converged to " ++ Decimal.text solution.root ++
              s!" after {solution.iters} iterations")]
        | .stoppedByObserver =>
            [entry .debug s!"secant stopped by observer after {solution.iters} iterations"]
        | .maxIters =>
            [entry .debug s!"secant reached {limits.maxIters} iterations without converging"]

end Roots

def ofElimination (size : Nat) (run : Linear.EliminationRun Float) : List Entry :=
  match run.result with
  | .error (.unsupportedSize ..) => []
  | .error (.singular column pivot) =>
      begun :: run.steps.flatMap made ++
        [entry .debug ("zero pivot " ++ Decimal.text pivot ++ s!" in column {column}")]
  | .ok solution =>
      begun :: run.steps.flatMap made ++
        [entry .debug s!"solved {size}x{size} system in {solution.steps.length} steps"]
where
  entry (level : Level) (text : String) : Entry := ⟨level, "numkit_solvers::linear::gauss", text⟩
  begun : Entry := entry .debug s!"gaussian elimination on a {size}x{size} system"
  made : Linear.Step Float → List Entry
    | .swap row other => [entry .trace s!"swapped rows {row} and {other}"]
    | .eliminate target pivotRow factor =>
        [entry .trace (s!"row {target} -= " ++ Decimal.text factor ++ s!" * row {pivotRow}")]
    | .initial | .backSubstitution | .resolved .. => []

end EquationSolver.Journal
