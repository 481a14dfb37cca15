/-!
# Log entries

What a computation did, told in lines of different importance. Entries are data: whoever runs the
computation decides which are shown.
-/

namespace EquationSolver.Journal

inductive Level
  | error
  | warn
  | info
  | debug
  | trace
deriving DecidableEq, Repr

namespace Level

/-- All levels, the most important first. -/
def all : List Level := [.error, .warn, .info, .debug, .trace]

def name : Level → String
  | .error => "error"
  | .warn => "warn"
  | .info => "info"
  | .debug => "debug"
  | .trace => "trace"

/-- The name of a level in front of an entry. -/
def label : Level → String
  | .error => "ERROR"
  | .warn => "WARN"
  | .info => "INFO"
  | .debug => "DEBUG"
  | .trace => "TRACE"

def ofName? (name : String) : Option Level :=
  all.find? fun level => level.name == name

/-- The place of a level in the order of importance, the most important first. -/
def rank : Level → Nat
  | .error => 1
  | .warn => 2
  | .info => 3
  | .debug => 4
  | .trace => 5

end Level

/-- One entry of a log: its importance, the part of the program that wrote it, and what it says. -/
structure Entry where
  level : Level
  target : String
  text : String
deriving DecidableEq, Repr

/-- The entries that are at least as important as a level. -/
def upTo (level : Level) (entries : List Entry) : List Entry :=
  entries.filter fun entry => entry.level.rank ≤ level.rank

/-- An entry on one line of the error output. -/
def Entry.line (entry : Entry) : String :=
  "[" ++ String.ofList (entry.level.label.toList.rightpad 5 ' ') ++ " " ++ entry.target ++ "] " ++
    entry.text

end EquationSolver.Journal
