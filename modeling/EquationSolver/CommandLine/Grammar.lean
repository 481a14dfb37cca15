import EquationSolver.Decimal.Reader
import EquationSolver.Journal.Entry
import EquationSolver.Text.Lines
import EquationSolver.Text.Terminal

/-!
# The grammar of the command line

Which commands there are, which options each takes, and what the values of options stand for.
-/

namespace EquationSolver.CommandLine

def programName : String := "numkit"

def version : String := "0.1.0"

/-- What the program is asked to do. -/
inductive Command
  | eval
  | bisection
  | secant
  | gauss
deriving DecidableEq, Repr

def Command.name : Command → String
  | .eval => "eval"
  | .bisection => "bisection"
  | .secant => "secant"
  | .gauss => "gauss"

def Command.ofName? (name : String) : Option Command :=
  [Command.eval, .bisection, .secant, .gauss].find? fun command => command.name == name

/-- The options that take a value. -/
inductive Setting
  | logLevel
  | x
  | a
  | b
  | x0
  | x1
  | tol
  | maxIters
  | size
deriving DecidableEq, Repr

/-- The options that take none. -/
inductive Switch
  | json
  | help
  | version
deriving DecidableEq, Repr

namespace Setting

/-- An option as messages name it, with a place for its value. -/
def label : Setting → String
  | .logLevel => "--log-level <LOG_LEVEL>"
  | .x => "--x <X>"
  | .a => "-a <A>"
  | .b => "-b <B>"
  | .x0 => "--x0 <X0>"
  | .x1 => "--x1 <X1>"
  | .tol => "--tol <TOL>"
  | .maxIters => "--max-iters <MAX_ITERS>"
  | .size => "--size <SIZE>"

/-- Whether a negative number may follow the option as a word of its own. -/
def takesNegative : Setting → Bool
  | .x | .a | .b | .x0 | .x1 => true
  | .logLevel | .tol | .maxIters | .size => false

end Setting

def rowsLabel : String := "[ROWS]..."

/-- The option of a long name, in front of the command or behind it. -/
def longOption? (command : Option Command) (name : String) : Option (Setting ⊕ Switch) :=
  match name, command with
  | "log-level", _ => some (.inl .logLevel)
  | "json", _ => some (.inr .json)
  | "help", _ => some (.inr .help)
  | "version", _ => some (.inr .version)
  | "x", some .eval => some (.inl .x)
  | "x0", some .secant => some (.inl .x0)
  | "x1", some .secant => some (.inl .x1)
  | "tol", some .bisection | "tol", some .secant => some (.inl .tol)
  | "max-iters", some .bisection | "max-iters", some .secant => some (.inl .maxIters)
  | "size", some .gauss => some (.inl .size)
  | _, _ => none

/-- The option of a letter, in front of the command or behind it. -/
def shortOption? (command : Option Command) (letter : Char) : Option (Setting ⊕ Switch) :=
  match letter, command with
  | 'h', _ => some (.inr .help)
  | 'V', _ => some (.inr .version)
  | 'a', some .bisection => some (.inl .a)
  | 'b', some .bisection => some (.inl .b)
  | _, _ => none

/-- A command line that is refused: a value that its option cannot take, for a reason that may be
known, or any other fault. -/
inductive Refusal
  | invalidValue (value label : String) (reason : Option String)
  | usage
deriving DecidableEq, Repr

/-- What is said of a value that its option cannot take, on a terminal. -/
def invalidValueMessage (value label : String) (reason : Option String) : String :=
  Text.bold "error:" ++ " invalid value '" ++ Text.bold value ++ "' for '" ++ Text.bold label ++ "'" ++
    (reason.map (": " ++ ·)).getD "" ++ "\n\nFor more information, try '" ++ Text.bold "--help" ++ "'.\n"

/-- What is said first of a refused command line: the faulty value, or just that there is a fault. -/
def Refusal.headline : Refusal → String
  | .usage => "error"
  | .invalidValue value label reason =>
      String.ofList (Text.firstLine (Text.plain (invalidValueMessage value label reason).toList))

/-- What is given on one side of the command, options by name. -/
structure Given where
  logLevel : Option Journal.Level := none
  json : Bool := false
  x : Option Float := none
  a : Option Float := none
  b : Option Float := none
  x0 : Option Float := none
  x1 : Option Float := none
  tol : Option Float := none
  maxIters : Option Nat := none
  size : Option Nat := none

/-- The level that a text names. An empty text counts as no value at all. -/
def readLevel (value : String) : Except Refusal Journal.Level :=
  match Journal.Level.ofName? value with
  | some level => .ok level
  | none =>
      .error (if value.isEmpty then .usage else .invalidValue value Setting.logLevel.label none)

def readFloat (setting : Setting) (value : String) : Except Refusal Float :=
  match Decimal.read? value.toList with
  | some x => .ok x
  | none =>
      .error (.invalidValue value setting.label (some
        (if value.isEmpty then "cannot parse float from empty string" else "invalid float literal")))

/-- Counts lie below two to the power of 64. -/
def countBound : Nat := Nat.pow 2 64

def readCount (setting : Setting) (value : String) : Except Refusal Nat :=
  (Decimal.readCount countBound value.toList).mapError fun fault =>
    .invalidValue value setting.label (some (match fault with
      | .empty => "cannot parse integer from empty string"
      | .badDigit => "invalid digit found in string"
      | .tooLarge => "number too large to fit in target type"))

/-- Puts the value of an option where nothing is given for it yet. -/
def put {α : Type} (old : Option α) (read : Except Refusal α) (store : Option α → Given) :
    Except Refusal Given :=
  if old.isSome then .error .usage else read.map fun value => store (some value)

namespace Given

/-- Takes an option with its value; it may be given once. -/
def set (given : Given) (setting : Setting) (value : String) : Except Refusal Given :=
  match setting with
  | .logLevel => put given.logLevel (readLevel value) fun v => { given with logLevel := v }
  | .x => put given.x (readFloat .x value) fun v => { given with x := v }
  | .a => put given.a (readFloat .a value) fun v => { given with a := v }
  | .b => put given.b (readFloat .b value) fun v => { given with b := v }
  | .x0 => put given.x0 (readFloat .x0 value) fun v => { given with x0 := v }
  | .x1 => put given.x1 (readFloat .x1 value) fun v => { given with x1 := v }
  | .tol => put given.tol (readFloat .tol value) fun v => { given with tol := v }
  | .maxIters => put given.maxIters (readCount .maxIters value) fun v => { given with maxIters := v }
  | .size => put given.size (readCount .size value) fun v => { given with size := v }

/-- Takes the switch for documents; it may be given once. -/
def setJson (given : Given) : Except Refusal Given :=
  if given.json then .error .usage else .ok { given with json := true }

end Given

end EquationSolver.CommandLine
