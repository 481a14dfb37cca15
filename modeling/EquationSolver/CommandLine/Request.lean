import EquationSolver.CommandLine.Words
import EquationSolver.Roots.Limits
import EquationSolver.Text.Blank

/-!
# Requests

What an accepted command line asks for.
-/

namespace EquationSolver.CommandLine

/-- The limits of a run as they were given. They are checked once the formula was read. -/
structure GivenLimits where
  maxIters : Nat
  tolerance : Float
deriving Repr

/-- What the program is asked to compute. -/
inductive Task
  | eval (formula : String) (x : Float)
  | bisection (formula : String) (a b : Float) (limits : GivenLimits)
  | secant (formula : String) (x0 x1 : Float) (limits : GivenLimits)
  | solve (rows : List (List Float))
  | template (size : Nat)
deriving Repr

/-- A task, and how its outcome is told. -/
structure Request where
  task : Task
  json : Bool
  level : Journal.Level
deriving Repr

/-- The entries of a list that is separated by commas. There is always at least one. -/
def splitAtCommas : List Char → List (List Char)
  | [] => [[]]
  | c :: rest =>
      if c = ',' then [] :: splitAtCommas rest
      else
        match splitAtCommas rest with
        | [] => [[c]]
        | entry :: entries => (c :: entry) :: entries

/-- A row of a matrix: numbers separated by commas, with blanks around them. -/
def readRow (word : String) : Except Refusal (List Float) :=
  (splitAtCommas word.toList).mapM fun entry =>
    let entry := Text.trim entry
    match Decimal.read? entry with
    | some x => .ok x
    | none => .error (.invalidValue word rowsLabel
        (some ("`" ++ String.ofList entry ++ "` is not a number")))

/-- The level that the environment names, where none is given. -/
def environmentLevel? (given : Given) (environment : Option String) :
    Except Refusal (Option Journal.Level) :=
  match given.logLevel, environment with
  | none, some value => (readLevel value).map some
  | _, _ => .ok none

def required {α : Type} : Option α → Except Refusal α
  | some value => .ok value
  | none => .error .usage

def Given.limits (given : Given) : GivenLimits :=
  ⟨given.maxIters.getD Roots.Limits.defaultMaxIters, given.tol.getD Roots.Limits.defaultTolerance⟩

/-- The task of a command, given its options and the words behind it. -/
def taskOf (command : Command) (given : Given) (words : List String) (rows : List (List Float)) :
    Except Refusal Task := do
  match command with
  | .eval => return .eval (← required words.head?) (← required given.x)
  | .bisection =>
      return .bisection (← required words.head?) (← required given.a) (← required given.b) given.limits
  | .secant =>
      return .secant (← required words.head?) (← required given.x0) (← required given.x1) given.limits
  | .gauss =>
      match rows, given.size with
      | [], some size => return .template size
      | _ :: _, none => return .solve rows
      | [], none | _ :: _, some _ => throw .usage

/-- The level of the log: what is given behind the command counts before what is given in front of
it, and that before the environment. -/
def levelOf (front behind : Given) (environment : Option Journal.Level) : Journal.Level :=
  (behind.logLevel.or (front.logLevel.or environment)).getD .warn

/-- What words behind a command ask for, and the level that the environment names. The values of
options are looked at before the environment, and that before missing options. -/
def readBehind (command : Command) (environment : Option String) (words : List String) :
    Except Interrupt (Given × Option Journal.Level × Task) :=
  (readWords (some command) {} words).bind fun reading =>
    Except.mapError .refused do
      let reading ← reading.settle
      let words := reading.positionals.reverse
      let rows ← if command = .gauss then words.mapM readRow else pure []
      let level? ← environmentLevel? reading.given environment
      let task ← taskOf command reading.given words rows
      return (reading.given, level?, task)

/-- What the words of a command line ask for. What stands in front of the command is looked at
last. -/
def readRequest (environment : Option String) (words : List String) : Except Interrupt Request :=
  (readToCommand {} words).bind fun
    | .inl reading =>
        Except.mapError .refused do
          let reading ← reading.settle
          let _ ← environmentLevel? reading.given environment
          throw .usage
    | .inr split =>
        (readBehind split.command environment split.rest).bind fun (behind, level?, task) =>
          Except.mapError .refused do
            let reading ← split.reading.settle
            let front := reading.given
            let frontLevel? ← environmentLevel? front environment
            return ⟨task, front.json || behind.json, levelOf front behind (level?.or frontLevel?)⟩

end EquationSolver.CommandLine
