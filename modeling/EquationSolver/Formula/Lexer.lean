import EquationSolver.Decimal.Reader
import EquationSolver.Formula.Error
import EquationSolver.Text.Blank

/-!
# Splitting a formula into tokens

Blanks separate tokens and are dropped. A number is the longest run of digits and points, and an
exponent if one follows; a name is the longest run of letters, or the letter `π` alone. Splitting
ends at the first text that is no token.
-/

namespace EquationSolver.Formula

open EquationSolver.Text (isBlank)

namespace Lexer

/-- Whether a character belongs to the run of a number in front of its exponent. -/
def isNumeral (c : Char) : Bool :=
  c.isDigit || c == '.'

/-- The exponent at the head of a text: a mark, a sign that may be left out, and digits. Without
digits there is none, so that `2e` is a number and the name `e`. -/
def exponentPart : List Char → List Char
  | [] => []
  | mark :: rest =>
      let sign := rest.takeWhile fun c => c == '+' || c == '-'
      let digits := (rest.drop sign.length).takeWhile Char.isDigit
      if (mark == 'e' || mark == 'E') && sign.length ≤ 1 && !digits.isEmpty then
        mark :: (sign ++ digits)
      else []

/-- What belongs to the lexeme that begins with a character, of the text after that character. -/
def continuation (c : Char) (rest : List Char) : List Char :=
  if isNumeral c then
    let run := rest.takeWhile isNumeral
    run ++ exponentPart (rest.drop run.length)
  else if c.isAlpha then rest.takeWhile Char.isAlpha
  else []

/-- The value of a numeral: it has at most one point, and a digit in front of its exponent. -/
def numeral? (lexeme : List Char) : Option Float :=
  if 1 < lexeme.count '.' then none else Decimal.read? lexeme

/-- The token that a lexeme is. -/
def classify (start : Nat) (c : Char) (rest : List Char) : Except ParseError Token :=
  let lexeme := String.ofList (c :: rest)
  let span := ⟨start, start + (rest.length + 1)⟩
  if isNumeral c then
    match numeral? (c :: rest) with
    | some value => .ok ⟨.number value, span, lexeme⟩
    | none => .error (.invalidNumber lexeme span)
  else if c.isAlpha || c == 'π' then .ok ⟨.name lexeme, span, lexeme⟩
  else
    match Token.Kind.ofChar? c with
    | some kind => .ok ⟨kind, span, lexeme⟩
    | none => .error (.unexpectedChar c span)

/-- The tokens of a text whose first character stands at `start`; what is no token comes last. -/
def items (start : Nat) (text : List Char) : List (Except ParseError Token) :=
  let first := start + (text.takeWhile isBlank).length
  match _split : text.dropWhile isBlank with
  | [] => []
  | c :: rest =>
      let more := continuation c rest
      match classify first c more with
      | .error e => [.error e]
      | .ok token => .ok token :: items (first + (more.length + 1)) (rest.drop more.length)
termination_by text.length
decreasing_by
  have shorter := (List.dropWhile_suffix isBlank (l := text)).length_le
  rw [_split] at shorter
  simp only [List.length_cons, List.length_drop] at shorter ⊢
  omega

end Lexer

/-- All that splitting a formula yields: its tokens, and last what is no token if there is such. -/
def lexItems (source : String) : List (Except ParseError Token) :=
  Lexer.items 0 source.toList

def tokenize (source : String) : Except ParseError (List Token) :=
  (lexItems source).mapM id

end EquationSolver.Formula
