import EquationSolver.Decimal.Basic

/-!
# Reading numbers

The grammar of decimal numbers, and the float nearest to the number that a text stands for. A number
is digits with at most one point, at least one digit among them, and an exponent that may follow.
-/

namespace EquationSolver.Decimal

def ofDigits (digits : List Char) : Nat :=
  digits.foldl (fun n c => 10 * n + (c.toNat - '0'.toNat)) 0

/-- The float nearest to `digits · 10 ^ exponent`. Numbers far above all floats are infinite, and
those far below the least are zero, whatever their digits. -/
def nearestFloat (digits : Nat) (exponent : Int) : Float :=
  let magnitude := exponent + digitCount digits
  if digits = 0 ∨ magnitude < -330 then 0.0
  else if 310 < magnitude then 1.0 / 0.0
  else Float.ofScientific digits (exponent < 0) exponent.natAbs

def readExponent? : List Char → Option Int
  | '-' :: digits => (unsigned? digits).map fun n => -(n : Int)
  | '+' :: digits => (unsigned? digits).map fun n => (n : Int)
  | digits => (unsigned? digits).map fun n => (n : Int)
where
  unsigned? (digits : List Char) : Option Nat :=
    if digits ≠ [] ∧ digits.all Char.isDigit then some (ofDigits digits) else none

/-- Digits, a point and digits, with one digit at least, then an exponent or the end. -/
def readUnsigned? (text : List Char) : Option Float :=
  let whole := text.takeWhile Char.isDigit
  let (fraction, rest) := match text.dropWhile Char.isDigit with
    | '.' :: rest => (rest.takeWhile Char.isDigit, rest.dropWhile Char.isDigit)
    | rest => ([], rest)
  let exponent? := match rest with
    | [] => some 0
    | mark :: rest => if mark = 'e' ∨ mark = 'E' then readExponent? rest else none
  if (whole ++ fraction).isEmpty then none
  else exponent?.map fun exponent =>
    nearestFloat (ofDigits (whole ++ fraction)) (exponent - fraction.length)

/-- A magnitude: infinity or what is not a number by name, in letters of either case, or a number. -/
def readMagnitude? (text : List Char) : Option Float :=
  let name := String.ofList (text.map Char.toLower)
  if name = "inf" ∨ name = "infinity" then some (1.0 / 0.0)
  else if name = "nan" then some (0.0 / 0.0)
  else readUnsigned? text

/-- The float that a text stands for: a magnitude with a sign that may be left out. -/
def read? : List Char → Option Float
  | '-' :: rest => (readMagnitude? rest).map fun x => -x
  | '+' :: rest => readMagnitude? rest
  | rest => readMagnitude? rest

/-- Why a text is no whole number below a bound. -/
inductive CountError
  | empty
  | badDigit
  | tooLarge
deriving DecidableEq, Repr

/-- Reads on through digits from a number read so far; the first fault met decides. -/
def readDigits (bound : Nat) : Nat → List Char → Except CountError Nat
  | n, [] => .ok n
  | n, c :: rest =>
      if !c.isDigit then .error .badDigit
      else
        let n := 10 * n + (c.toNat - '0'.toNat)
        if bound ≤ n then .error .tooLarge else readDigits bound n rest

/-- A whole number below a bound. A plus sign may stand in front of its digits. -/
def readCount (bound : Nat) (text : List Char) : Except CountError Nat :=
  match text with
  | [] => .error .empty
  | ['+'] => .error .badDigit
  | '+' :: digits => readDigits bound 0 digits
  | digits => readDigits bound 0 digits

end EquationSolver.Decimal
