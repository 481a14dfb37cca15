/-!
# Trees of formulas

A formula is a tree over one variable: numbers, the variable, signs, the five operators and calls of
built-in functions. This module holds the trees, the binding strength of operators, and values.
-/

namespace EquationSolver.Formula

inductive UnaryOp
  | negate
  | keep
deriving DecidableEq, Repr

inductive BinaryOp
  | add
  | sub
  | mul
  | div
  | pow
deriving DecidableEq, Repr

/-- The side on which operators of one strength group. -/
inductive Grouping
  | left
  | right
deriving DecidableEq, Repr

/-- The built-in functions of one argument. -/
inductive Builtin
  | sin
  | cos
  | tan
  | log
  | ln
  | sqrt
  | exp
  | abs
deriving DecidableEq, Repr

inductive Node
  | number (value : Float)
  | var
  | unary (op : UnaryOp) (operand : Node)
  | binary (op : BinaryOp) (left right : Node)
  | call (function : Builtin) (argument : Node)
deriving BEq, Repr

/-- A power. The zeroth power of every value is one, also of one that is no number. -/
def power (base exponent : Float) : Float :=
  if exponent == 0.0 then 1.0 else Float.pow base exponent

@[simp] theorem power_zero (base : Float) : power base 0.0 = 1.0 :=
  if_pos (by decide)

namespace BinaryOp

def strength : BinaryOp → Nat
  | .add | .sub => 2
  | .mul | .div => 3
  | .pow => 5

/-- Powers group to the right, the other operators to the left. -/
def grouping : BinaryOp → Grouping
  | .add | .sub | .mul | .div => .left
  | .pow => .right

def symbol : BinaryOp → Char
  | .add => '+'
  | .sub => '-'
  | .mul => '*'
  | .div => '/'
  | .pow => '^'

def apply : BinaryOp → Float → Float → Float
  | .add, l, r => l + r
  | .sub, l, r => l - r
  | .mul, l, r => l * r
  | .div, l, r => l / r
  | .pow, l, r => power l r

end BinaryOp

namespace UnaryOp

/-- How strongly a sign binds its operand: more than products, less than powers. -/
def strength : Nat := 4

def symbol : UnaryOp → Char
  | .negate => '-'
  | .keep => '+'

def apply : UnaryOp → Float → Float
  | .negate, x => -x
  | .keep, x => x

end UnaryOp

namespace Builtin

/-- All functions, in the order in which they are listed. -/
def all : List Builtin := [.sin, .cos, .tan, .log, .ln, .sqrt, .exp, .abs]

def name : Builtin → String
  | .sin => "sin"
  | .cos => "cos"
  | .tan => "tan"
  | .log => "log"
  | .ln => "ln"
  | .sqrt => "sqrt"
  | .exp => "exp"
  | .abs => "abs"

def ofName? (name : String) : Option Builtin :=
  all.find? fun f => f.name == name

@[simp] theorem ofName?_name (f : Builtin) : ofName? f.name = some f := by
  cases f <;> decide

theorem name_of_ofName? {name : String} {f : Builtin} (h : ofName? name = some f) :
    f.name = name := by
  have := List.find?_some h
  simpa using this

/-- The value of a function. Both logarithms are no numbers outside the positive reals. -/
def apply : Builtin → Float → Float
  | .sin, x => x.sin
  | .cos, x => x.cos
  | .tan, x => x.tan
  | .log, x => if x ≤ 0.0 then 0.0 / 0.0 else x.log10
  | .ln, x => if x ≤ 0.0 then 0.0 / 0.0 else x.log
  | .sqrt, x => x.sqrt
  | .exp, x => x.exp
  | .abs, x => x.abs

end Builtin

namespace Node

def eval (x : Float) : Node → Float
  | number value => value
  | var => x
  | unary op operand => op.apply (operand.eval x)
  | binary op left right => op.apply (left.eval x) (right.eval x)
  | call function argument => function.apply (argument.eval x)

/-- The number of levels of a tree; a leaf has one. -/
def height : Node → Nat
  | number _ | var => 1
  | unary _ operand => operand.height + 1
  | binary _ left right => max left.height right.height + 1
  | call _ argument => argument.height + 1

end Node

end EquationSolver.Formula
