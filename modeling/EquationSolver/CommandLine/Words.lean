import EquationSolver.CommandLine.Grammar

/-!
# Reading the words of a command line

The words are read from left to right. An option's value is a part of its word or the next word. A
value in a word of its own is kept back, and only looked at when the next option or the end is
reached; a fault in the words that come before that hides a fault in the value.
-/

namespace EquationSolver.CommandLine

/-- An end of reading before the last word. -/
inductive Interrupt
  | refused (refusal : Refusal)
  | help (command : Option Command)
  | version (command : Option Command)

/-- What was read of the words on one side of the command. -/
structure Reading where
  given : Given := {}
  /-- The option read last, whose value was not looked at yet, with the value if it was met. -/
  held : Option (Setting × Option String) := none
  /-- Set behind `--`, where no word is an option. -/
  plain : Bool := false
  /-- The words that are no options, the last one first. -/
  positionals : List String := []

namespace Reading

/-- Looks at the value that was kept back. -/
def settle (reading : Reading) : Except Refusal Reading :=
  match reading.held with
  | none => .ok reading
  | some (_, none) => .error .usage
  | some (setting, some value) =>
      (reading.given.set setting value).map fun given => { reading with given, held := none }

/-- The option that still waits for its value. -/
def waiting (reading : Reading) : Option Setting :=
  reading.held.bind fun
    | (setting, none) => some setting
    | (_, some _) => none

def takeWord (command : Option Command) (reading : Reading) (word : String) :
    Except Refusal Reading :=
  match reading.waiting, reading.plain with
  | some setting, false => .ok { reading with held := some (setting, some word) }
  | _, _ =>
      if command = none ∨ (command ≠ some .gauss ∧ reading.positionals ≠ []) then .error .usage
      else reading.settle.map fun reading =>
        { reading with positionals := word :: reading.positionals }

/-- Takes an option, with its value if that is a part of the same word. -/
def takeOption (command : Option Command) (reading : Reading) (option : Setting ⊕ Switch)
    (value? : Option String) : Except Interrupt Reading :=
  match option, value? with
  | .inr _, some _ => .error (.refused .usage)
  | .inr switch, none =>
      match reading.settle with
      | .error refusal => .error (.refused refusal)
      | .ok reading =>
          match switch with
          | .help => .error (.help command)
          | .version => .error (.version command)
          | .json => (reading.given.setJson.map ({ reading with given := · })).mapError .refused
  | .inl setting, some value =>
      (reading.settle.bind fun reading =>
        (reading.given.set setting value).map ({ reading with given := · })).mapError .refused
  | .inl setting, none =>
      (reading.settle.map ({ · with held := some (setting, none) })).mapError .refused

end Reading

def isExponentMark (c : Char) : Bool :=
  c == 'e' || c == 'E'

/-- Whether what follows a hyphen makes it the sign of a number: digits, with at most one point that
does not come first, and an exponent mark in front of further digits. -/
def isNegativeNumber (digits : List Char) : Bool :=
  let mantissa := digits.takeWhile (!isExponentMark ·)
  let exponent := digits.dropWhile (!isExponentMark ·)
  mantissa.all (fun c => c.isDigit || c == '.') && mantissa.count '.' ≤ 1 &&
    mantissa.head? ≠ some '.' && mantissa ≠ [] &&
    match exponent with
    | [] => true
    | _ :: power => power ≠ [] && power.all Char.isDigit

/-- Splits a word of a long option at its first equals sign. -/
def splitAtEquals (word : List Char) : String × Option String :=
  let name := String.ofList (word.takeWhile (· ≠ '='))
  match word.dropWhile (· ≠ '=') with
  | [] => (name, none)
  | _ :: value => (name, some (String.ofList value))

/-- The value that follows the letter of an option in the same word; an equals sign may lead it. -/
def attachedValue : List Char → Option String
  | [] => none
  | '=' :: value => some (String.ofList value)
  | value => some (String.ofList value)

/-- Takes a word. Behind the first row of a matrix every word is a row, and in front of it every word
is one that looks like an option but is none. -/
def readWord (command : Option Command) (reading : Reading) (word : String) :
    Except Interrupt Reading :=
  let asWord := (reading.takeWord command word).mapError Interrupt.refused
  let rowsNext := command = some .gauss
  if reading.plain ∨ (rowsNext ∧ reading.positionals ≠ []) then asWord
  else
    match word.toList with
    | ['-', '-'] => .ok { reading with plain := true }
    | '-' :: '-' :: long =>
        let (name, value?) := splitAtEquals long
        match longOption? command name with
        | some option => reading.takeOption command option value?
        | none => if rowsNext then asWord else .error (.refused .usage)
    | '-' :: letter :: rest =>
        if (reading.waiting.any Setting.takesNegative && isNegativeNumber (letter :: rest)) ||
            (rowsNext && (letter :: rest).any fun c => (shortOption? command c).isNone) then asWord
        else
          match shortOption? command letter with
          | none => .error (.refused .usage)
          | some (.inr switch) => reading.takeOption command (.inr switch) none
          | some (.inl setting) => reading.takeOption command (.inl setting) (attachedValue rest)
    | _ => asWord

def readWords (command : Option Command) : Reading → List String → Except Interrupt Reading
  | reading, [] => .ok reading
  | reading, word :: words =>
      (readWord command reading word).bind fun reading => readWords command reading words

/-- The words of a command line, taken apart at the command. -/
structure Split where
  reading : Reading
  command : Command
  rest : List String

/-- What is asked for behind the word `help`: help in general, or on one command or on `help`
itself. -/
def readHelp : List String → Interrupt
  | [] | ["help"] => .help none
  | [word] =>
      match Command.ofName? word with
      | some command => .help (some command)
      | none => .refused .usage
  | _ => .refused .usage

/-- Reads words up to the command. A line without a command asks for nothing. -/
def readToCommand : Reading → List String → Except Interrupt (Reading ⊕ Split)
  | reading, [] => .ok (.inl reading)
  | reading, word :: words =>
      let read := (readWord none reading word).bind fun reading => readToCommand reading words
      if reading.plain ∨ reading.waiting.isSome then read
      else if word = "help" then .error (readHelp words)
      else
        match Command.ofName? word with
        | some command => .ok (.inr ⟨reading, command, words⟩)
        | none => read

end EquationSolver.CommandLine
