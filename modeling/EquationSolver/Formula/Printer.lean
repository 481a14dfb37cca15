import EquationSolver.Decimal.Layout
import EquationSolver.Formula.Node

/-!
# Writing formulas

A tree is written with a blank on either side of each operator. An operand is put between
parentheses only where it binds too weakly for its place, or as strongly as the operator but on the
side to which the operator does not group.
-/

namespace EquationSolver.Formula.Node

/-- How strongly the text of a tree holds together. Numbers, the variable and calls never need
parentheses. -/
def strength : Node → Nat
  | number _ | var | call _ _ => 99
  | unary _ _ => UnaryOp.strength
  | binary op _ _ => op.strength

/-- A text between parentheses if it needs them. -/
def enclose (needed : Bool) (text : List Char) : List Char :=
  if needed then '(' :: (text ++ [')']) else text

/-- Whether a left operand of an operator needs parentheses. -/
def enclosedLeft (op : BinaryOp) (operand : Node) : Bool :=
  operand.strength < op.strength || (operand.strength == op.strength && op.grouping != .left)

/-- Whether a right operand of an operator needs parentheses. -/
def enclosedRight (op : BinaryOp) (operand : Node) : Bool :=
  operand.strength < op.strength || (operand.strength == op.strength && op.grouping != .right)

def chars : Node → List Char
  | number value => (Decimal.text value).toList
  | var => ['x']
  | unary op operand => op.symbol :: enclose (operand.strength < UnaryOp.strength) operand.chars
  | binary op left right =>
      enclose (enclosedLeft op left) left.chars ++ ' ' :: op.symbol :: ' ' ::
        enclose (enclosedRight op right) right.chars
  | call function argument => function.name.toList ++ enclose true argument.chars

def text (node : Node) : String :=
  String.ofList node.chars

end EquationSolver.Formula.Node
