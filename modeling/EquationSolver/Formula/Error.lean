import EquationSolver.Formula.Token

/-!
# Errors of formulas

Why a text is no formula, and why a formula has no value at a point.
-/

namespace EquationSolver.Formula

/-- Why a text is no formula. -/
inductive ParseError
  | empty
  | unexpectedChar (char : Char) (span : Span)
  | invalidNumber (lexeme : String) (span : Span)
  | unknownName (name : String) (span : Span)
  /-- The name of a function without the parenthesis of its argument. -/
  | missingArgument (name : String) (span : Span)
  | unmatchedOpen (span : Span)
  | unmatchedClose (span : Span)
  | unexpectedToken (lexeme : String) (span : Span)
  /-- The text ends where an operand is needed, after the given token. -/
  | unexpectedEnd (after : String)
  | tooDeep (limit : Nat) (span : Span)
deriving DecidableEq, Repr

namespace ParseError

/-- Where in the formula an error was found, if it has a place. -/
def span? : ParseError → Option Span
  | .empty | .unexpectedEnd _ => none
  | .unexpectedChar _ span | .invalidNumber _ span | .unknownName _ span | .missingArgument _ span
  | .unmatchedOpen span | .unmatchedClose span | .unexpectedToken _ span | .tooDeep _ span =>
      some span

def message : ParseError → String
  | .empty => "empty expression"
  | .unexpectedChar char span => s!"unexpected character '{char}' at column {span.column}"
  | .invalidNumber lexeme span => s!"invalid number '{lexeme}' at column {span.column}"
  | .unknownName name span => s!"unknown identifier '{name}' at column {span.column}"
  | .missingArgument name span =>
      s!"function '{name}' at column {span.column} must be followed by '('"
  | .unmatchedOpen span => s!"unmatched '(' at column {span.column}"
  | .unmatchedClose span => s!"unmatched ')' at column {span.column}"
  | .unexpectedToken lexeme span => s!"unexpected '{lexeme}' at column {span.column}"
  | .unexpectedEnd after => s!"unexpected end of expression after '{after}'"
  | .tooDeep limit span =>
      s!"expression nests deeper than {limit} levels at column {span.column}"

end ParseError

/-- A formula's value at a point that is not a finite number. -/
structure NonFiniteValue where
  x : Float
  value : Float
deriving Repr

def NonFiniteValue.message (e : NonFiniteValue) : String :=
  "expression is not finite at x = " ++ Decimal.text e.x ++ ": " ++ Decimal.text e.value

end EquationSolver.Formula
