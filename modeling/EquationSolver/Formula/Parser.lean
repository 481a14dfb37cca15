import EquationSolver.Formula.Lexer
import EquationSolver.Formula.Node

/-!
# Reading formulas

Operators are read by strength: an expression is an operand followed by operators that bind at least
as strongly as its place asks, each with an operand that binds more strongly, or as strongly where
the operator groups to the right. Where two operands meet, a product is implied.

Every expression, and every operator in it, uses up one level of a budget. The budget bounds the
tree that is built, and with it the recursion that reads and evaluates it.
-/

namespace EquationSolver.Formula

def maxDepth : Nat := 256

/-- The number between the circumference and the diameter of a circle, as a float. -/
def pi : Float := 3.141592653589793

/-- The base of the natural logarithm, as a float. -/
def eulerNumber : Float := 2.718281828459045

namespace Parser

/-- A place between tokens: the token before it, if any, and the tokens after it. -/
structure Cursor where
  previous : Option Token
  rest : List Token

abbrev Result := Except ParseError (Node × Cursor)

def Cursor.skip (here : Cursor) : Cursor :=
  match here.rest with
  | [] => here
  | token :: rest => ⟨some token, rest⟩

/-- The operator at a cursor behind an operand, and whether it is spelled out. A name or an opening
parenthesis implies a product; a number does so only behind a closing parenthesis, so that `x2` is
refused. -/
def Cursor.operator? (here : Cursor) : Option (BinaryOp × Bool) :=
  match here.rest with
  | [] => none
  | token :: _ =>
      match token.kind with
      | .plus => some (.add, true)
      | .minus => some (.sub, true)
      | .star => some (.mul, true)
      | .slash => some (.div, true)
      | .caret => some (.pow, true)
      | .name _ | .openParen => some (.mul, false)
      | .number _ => if here.previous.any Token.closes then some (.mul, false) else none
      | .closeParen => none

/-- The error of a token that cannot stand where it does. -/
def unexpected (token : Token) : ParseError :=
  .unexpectedToken token.lexeme token.span

/-- The error of a formula that uses up its levels, found at the next token or behind the last. -/
def tooDeep (here : Cursor) : ParseError :=
  .tooDeep maxDepth (((here.rest.head?).or here.previous).elim ⟨0, 0⟩ (·.span))

/-- The least strength that the right operand of an operator must have. -/
def rightStrength (op : BinaryOp) : Nat :=
  match op.grouping with
  | .left => op.strength + 1
  | .right => op.strength

/-- Takes the parenthesis that closes another one. -/
def close (opened : Token) (tree : Node) (here : Cursor) : Result :=
  match here.rest with
  | [] => .error (.unmatchedOpen opened.span)
  | token :: _ => if token.closes then .ok (tree, here.skip) else .error (unexpected token)

/-- Reads what stands between parentheses, up to and with the closing one. The parser `inner` reads
an expression whose operators have at least a given strength. -/
def group (inner : Nat → Cursor → Result) (opened : Token) (here : Cursor) : Result :=
  match here.rest.head? with
  | some token =>
      if token.closes then .error (unexpected token)
      else (inner 0 here).bind fun (tree, after) => close opened tree after
  | none => (inner 0 here).bind fun (tree, after) => close opened tree after

def named (inner : Nat → Cursor → Result) (name : String) (span : Span) (here : Cursor) : Result :=
  if name = "x" then .ok (.var, here)
  else if name = "pi" ∨ name = "π" then .ok (.number pi, here)
  else if name = "e" then .ok (.number eulerNumber, here)
  else
    match Builtin.ofName? name with
    | none => .error (.unknownName name span)
    | some function =>
        match here.rest with
        | ⟨.openParen, openSpan, lexeme⟩ :: _ =>
            (group inner ⟨.openParen, openSpan, lexeme⟩ here.skip).bind fun (argument, after) =>
              .ok (.call function argument, after)
        | _ => .error (.missingArgument name span)

/-- Reads an operand: a number, a name, a group, or a sign with its operand. -/
def operand (inner : Nat → Cursor → Result) (here : Cursor) : Result :=
  match here.rest with
  | [] => .error (.unexpectedEnd (here.previous.elim "" (·.lexeme)))
  | token :: _ =>
      match token.kind with
      | .minus => signed .negate
      | .plus => signed .keep
      | .number value => .ok (.number value, here.skip)
      | .name name => named inner name token.span here.skip
      | .openParen => group inner token here.skip
      | .star | .slash | .caret | .closeParen => .error (unexpected token)
where
  signed (op : UnaryOp) : Result :=
    (inner UnaryOp.strength here.skip).bind fun (tree, after) => .ok (.unary op tree, after)

mutual

/-- Reads an expression whose operators have at least a given strength, within a budget of levels. -/
def expression : Nat → Nat → Cursor → Result
  | 0, _, here => .error (tooDeep here)
  | budget + 1, least, here =>
      (operand (expression budget) here).bind fun (left, after) => chain budget least left after

/-- Reads the operators behind a left operand, each with its right operand. -/
def chain : Nat → Nat → Node → Cursor → Result
  | 0, least, left, here =>
      match here.operator? with
      | none => .ok (left, here)
      | some (op, _) => if op.strength < least then .ok (left, here) else .error (tooDeep here)
  | budget + 1, least, left, here =>
      match here.operator? with
      | none => .ok (left, here)
      | some (op, spelled) =>
          if op.strength < least then .ok (left, here)
          else
            (expression budget (rightStrength op) (if spelled then here.skip else here)).bind
              fun (right, after) => chain budget least (.binary op left right) after

end

end Parser

def parseTokens (tokens : List Token) : Except ParseError Node :=
  if tokens.isEmpty then .error .empty
  else
    (Parser.expression maxDepth 0 ⟨none, tokens⟩).bind fun (tree, after) =>
      match after.rest with
      | [] => .ok tree
      | token :: _ =>
          .error (if token.closes then .unmatchedClose token.span else Parser.unexpected token)

def parse (source : String) : Except ParseError Node :=
  (tokenize source).bind parseTokens

end EquationSolver.Formula
