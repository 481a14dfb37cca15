import EquationSolver.CommandLine.Outcome

/-!
# The program

Answers the command line it is called with.
-/

open EquationSolver.CommandLine

def main (words : List String) : IO UInt32 := do
  let environment ← IO.getEnv "NUMKIT_LOG_LEVEL"
  match answer environment words with
  | .refused refusal =>
      IO.eprintln refusal.headline
      IO.eprintln usage
      return 2
  | .written result =>
      IO.eprint result.errors
      IO.print result.output
      return result.exit.toUInt32
