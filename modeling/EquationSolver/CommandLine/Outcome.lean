import EquationSolver.CommandLine.Request
import EquationSolver.Formula.Expression
import EquationSolver.Journal.Runs
import EquationSolver.Report.Documents
import EquationSolver.Report.Table

/-!
# Outcomes

What the program writes for a request, and its exit code: 0 for a result, 1 for a failure, and 2 for
a root finder that reached its iteration limit.
-/

namespace EquationSolver.CommandLine

open Roots

/-- Why a task has no result: what was attempted, and the causes from the nearest on. -/
structure Failure where
  attempt : String
  causes : List String
deriving DecidableEq, Repr

/-- What a task does: what it logs, what it prints, and whether it reached an iteration limit or
failed. -/
structure Outcome where
  log : List Journal.Entry
  output : String
  result : Except Failure (Option Status)

def exitCode : Except Failure (Option Status) → UInt8
  | .error _ => 1
  | .ok (some .maxIters) => 2
  | .ok (some .converged) | .ok (some .stoppedByObserver) | .ok none => 0

namespace Failure

/-- A text whose lines after the first are moved to the right. -/
def indentLines (width : Nat) (text : String) : String :=
  String.ofList (text.toList.flatMap fun c =>
    if c = '\n' then '\n' :: List.replicate width ' ' else [c])

/-- A failure in words. Causes are numbered if there is more than one. -/
def report (failure : Failure) : String :=
  "Error: " ++ failure.attempt ++ "\n" ++
    match failure.causes with
    | [] => ""
    | [cause] => "\nCaused by:\n    " ++ indentLines 4 cause ++ "\n"
    | causes =>
        "\nCaused by:\n" ++ String.join (causes.zipIdx.map fun (cause, i) =>
          Decimal.rightAlign 5 (toString i) ++ ": " ++ indentLines 7 cause ++ "\n")

end Failure

/-- A formula between the marks that messages put around it. -/
def marked (formula : String) : String :=
  "`" ++ formula ++ "`"

def failed (log : List Journal.Entry) (attempt cause : String) : Outcome :=
  ⟨log, "", .error ⟨attempt, [cause]⟩⟩

/-- Reads a formula and goes on with it. -/
def withFormula (formula : String) (next : Formula.Expression → List Journal.Entry → Outcome) :
    Outcome :=
  let log := Journal.ofFormula formula
  match Formula.Expression.parse formula with
  | .error e => failed log ("failed to parse formula " ++ marked formula) e.message
  | .ok expression => next expression log

/-- Checks limits and goes on with them. -/
def withLimits (given : GivenLimits) (log : List Journal.Entry) (next : Limits Float → Outcome) :
    Outcome :=
  match Limits.make given.maxIters given.tolerance with
  | .error e => failed log "invalid solver limits" e.message
  | .ok limits => next limits

def evalOutcome (json : Bool) (formula : String) (x : Float) : Outcome :=
  withFormula formula fun expression log =>
    match expression.tryEval x with
    | .error e => failed log ("cannot evaluate " ++ marked formula) e.message
    | .ok value =>
        let output :=
          if json then (Report.evaluation formula x value).compact
          else "f(" ++ Decimal.text x ++ ") = " ++ Decimal.text value
        ⟨log, output ++ "\n", .ok none⟩

/-- Prints what a run of a root finder returned. The iterations made before a failure are printed as
a table. -/
def runOutcome {ρ ε : Type} [Report.Tabular ρ] (json : Bool) (record : ρ → Report.Json)
    (log : List Journal.Entry) (attempt : String) (causes : ε → List String)
    (trace? : ε → Option (Array ρ)) (result : Except ε (Solution ρ Float)) : Outcome :=
  match result with
  | .ok solution =>
      let output :=
        if json then (Report.rootSolution record solution).pretty
        else Report.table solution.trace ++ Report.summary solution
      ⟨log, output ++ "\n", .ok (some solution.status)⟩
  | .error e =>
      let output := match trace? e with
        | some trace => if trace.isEmpty then "" else Report.table trace
        | none => ""
      ⟨log, output, .error ⟨attempt, causes e⟩⟩

/-- The entry of an iteration of a root finder: the estimate and its error. -/
def iterationEntry (iter : Nat) (name : String) (estimate error : Float) : Journal.Entry :=
  ⟨.info, programName, s!"iteration {iter}: " ++ name ++ " = " ++ Decimal.text estimate ++
    ", error = " ++ Decimal.text error⟩

def bisectionOutcome (json : Bool) (formula : String) (a b : Float) (given : GivenLimits) : Outcome :=
  withFormula formula fun expression log =>
    withLimits given log fun limits =>
      let run := Bisection.run (ε := Empty) expression.call a b limits Observer.silent ()
      let noted := fun (r : Bisection.Record Float) => [iterationEntry r.iter "c" r.c r.error]
      runOutcome json Report.bisectionRecord (log ++ Journal.ofBisection limits noted run)
        "bisection failed" (Bisection.Error.causes Empty.elim) Bisection.Error.trace? run.result

def secantOutcome (json : Bool) (formula : String) (x0 x1 : Float) (given : GivenLimits) : Outcome :=
  withFormula formula fun expression log =>
    withLimits given log fun limits =>
      let run := Secant.run (ε := Empty) expression.call x0 x1 limits Observer.silent ()
      let noted := fun (r : Secant.Record Float) => [iterationEntry r.iter "x2" r.x2 r.error]
      runOutcome json Report.secantRecord (log ++ Journal.ofSecant limits noted run)
        "secant method failed" (Secant.Error.causes Empty.elim) Secant.Error.trace? run.result

def solveOutcome (json : Bool) (rows : List (List Float)) : Outcome :=
  match Linear.AugmentedMatrix.ofRows rows with
  | .error e => failed [] "invalid augmented matrix" e.message
  | .ok m =>
      let run := Linear.eliminate m Linear.SizeLimits.standard
      let log := Journal.ofElimination m.size run
      match run.result with
      | .error e => failed log "gaussian elimination failed" e.message
      | .ok solution =>
          let output :=
            if json then (Report.linearSolution solution).pretty ++ "\n"
            else Report.matrixText m ++ "\n\n" ++ Report.stepLog solution.steps ++ "\n" ++
              Report.unknowns solution.values
          ⟨log, output, .ok none⟩

def templateOutcome (json : Bool) (size : Nat) : Outcome :=
  let limits := Linear.SizeLimits.standard
  if limits.admits size then
    match Linear.AugmentedMatrix.zeros size with
    | .error e => ⟨[], "", .error ⟨e.message, []⟩⟩
    | .ok m =>
        let output := if json then (Report.matrixDocument m).compact else Report.matrixText m
        ⟨[], output ++ "\n", .ok none⟩
  else
    ⟨[], "", .error ⟨s!"size {size} is outside the supported range {limits.least}..={limits.greatest}",
      []⟩⟩

def Task.outcome (json : Bool) : Task → Outcome
  | .eval formula x => evalOutcome json formula x
  | .bisection formula a b limits => bisectionOutcome json formula a b limits
  | .secant formula x0 x1 limits => secantOutcome json formula x0 x1 limits
  | .solve rows => solveOutcome json rows
  | .template size => templateOutcome json size

/-- What the program writes, and its exit code. -/
structure Written where
  exit : UInt8
  output : String
  /-- The lines of the log, and the report of a failure. -/
  errors : String
deriving DecidableEq, Repr

def Request.perform (request : Request) : Written :=
  let outcome := request.task.outcome request.json
  let log := ⟨.debug, programName, programName ++ " v" ++ version ++ " starting"⟩ :: outcome.log
  let shown := (Journal.upTo request.level log).map fun entry => entry.line ++ "\n"
  let report := match outcome.result with
    | .error failure => failure.report
    | .ok _ => ""
  ⟨exitCode outcome.result, outcome.output, String.join shown ++ report⟩

/-- The name under which the program or one of its commands reports its version. -/
def versionName (command : Option Command) : String :=
  programName ++ (command.map fun c => "-" ++ c.name).getD ""

def usage : String :=
  "Usage: " ++ programName ++ " [--json] [--log-level <LOG_LEVEL>] <COMMAND>\n\nCommands:\n" ++
    "  eval <FORMULA> --x <X>\n" ++
    "  bisection <FORMULA> -a <A> -b <B> [--tol <TOL>] [--max-iters <MAX_ITERS>]\n" ++
    "  secant <FORMULA> --x0 <X0> --x1 <X1> [--tol <TOL>] [--max-iters <MAX_ITERS>]\n" ++
    "  gauss <ROWS>... | --size <SIZE>\n"

/-- What the answer to a command line is: a refusal, or what the program writes. -/
inductive Answer
  | refused (refusal : Refusal)
  | written (written : Written)

def Answer.exit : Answer → UInt8
  | .refused _ => 2
  | .written w => w.exit

/-- Answers a command line, given the level of the log that the environment names. -/
def answer (environment : Option String) (words : List String) : Answer :=
  match readRequest environment words with
  | .error (.refused refusal) => .refused refusal
  | .error (.help _) => .written ⟨0, usage, ""⟩
  | .error (.version command) => .written ⟨0, versionName command ++ " " ++ version ++ "\n", ""⟩
  | .ok request => .written request.perform

end EquationSolver.CommandLine
