import EquationSolver.Decimal.Layout

/-!
# Tokens

The words of a formula: numbers, names, operators and parentheses, each with the range of characters
it was read from.
-/

namespace EquationSolver.Formula

/-- A range of characters of a formula, from `start` up to but not including `stop`. -/
structure Span where
  start : Nat
  stop : Nat
deriving DecidableEq, Repr

/-- The column where a span begins, counted from one. -/
def Span.column (span : Span) : Nat :=
  span.start + 1

inductive Token.Kind
  | number (value : Float)
  | name (text : String)
  | plus
  | minus
  | star
  | slash
  | caret
  | openParen
  | closeParen
deriving Repr

/-- A word of a formula, with its place and its text. -/
structure Token where
  kind : Token.Kind
  span : Span
  lexeme : String
deriving Repr

namespace Token

/-- A token's meaning written out: a number by its value, all else by its text. -/
def Kind.text : Kind → String
  | .number value => Decimal.text value
  | .name text => text
  | .plus => "+"
  | .minus => "-"
  | .star => "*"
  | .slash => "/"
  | .caret => "^"
  | .openParen => "("
  | .closeParen => ")"

def Kind.ofChar? : Char → Option Kind
  | '+' => some .plus
  | '-' => some .minus
  | '*' => some .star
  | '/' => some .slash
  | '^' => some .caret
  | '(' => some .openParen
  | ')' => some .closeParen
  | _ => none

/-- The kind of a character is written as that character. -/
theorem Kind.text_of_ofChar? {c : Char} {kind : Kind} (h : Kind.ofChar? c = some kind) :
    kind.text = c.toString := by
  unfold Kind.ofChar? at h
  split at h <;> cases h <;> rfl

def closes (token : Token) : Bool :=
  match token.kind with
  | .closeParen => true
  | _ => false

end Token

end EquationSolver.Formula
