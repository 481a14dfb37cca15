import EquationSolver.Decimal.Shortest

/-!
# Number texts

How a float is written: with its shortest digits in one of several styles, or rounded to a fixed
number of places. The styles differ in where positional notation ends, in the mark of whole numbers,
in the sign of exponents and in the way exact ties between two shortest decimals go.
-/

namespace EquationSolver.Decimal

def notANumberText : String := "NaN"

def infinityText : String := "inf"

/-- Which exponents of the leading digit are written without an exponent part. -/
inductive Positional
  | always
  | never
  | between (least greatest : Int)
deriving DecidableEq, Repr

def Positional.covers (range : Positional) (lead : Int) : Bool :=
  match range with
  | .always => true
  | .never => false
  | .between least greatest => least ≤ lead && lead ≤ greatest

/-- The decisions of one way to write floats with their shortest digits. -/
structure Style where
  positional : Positional
  /-- What follows the digits of a whole number in positional notation. -/
  wholeMark : String
  /-- Whether a non-negative exponent is written with a plus sign. -/
  plusExponent : Bool
  tie : Tie
deriving DecidableEq, Repr

/-- Messages, formulas and answers write every number out in full, without an exponent. -/
def Style.plain : Style := ⟨.always, "", false, .up⟩

/-- Magnitudes too small for a fixed number of places are written with an exponent. -/
def Style.exponential : Style := ⟨.never, "", false, .up⟩

/-- Digits in positional notation; `lead` is the exponent of the first of them. -/
def positionalText (digits : List Char) (lead : Int) (wholeMark : String) : List Char :=
  if lead < 0 then '0' :: '.' :: (List.replicate (-lead - 1).toNat '0' ++ digits)
  else
    let whole := lead.toNat + 1
    if digits.length ≤ whole then digits ++ List.replicate (whole - digits.length) '0' ++ wholeMark.toList
    else digits.take whole ++ '.' :: digits.drop whole

/-- Digits with an exponent part: a point after the first digit if more follow. -/
def exponentText (digits : List Char) (lead : Int) (plusExponent : Bool) : List Char :=
  let fraction := digits.drop 1
  let sign := if lead < 0 then ['-'] else if plusExponent then ['+'] else []
  digits.take 1 ++ (if fraction.isEmpty then [] else '.' :: fraction) ++
    'e' :: (sign ++ Nat.toDigits 10 lead.natAbs)

/-- The digits of a decimal without the zeros at its end. -/
def significantDigits (d : Decimal) : List Char :=
  ((Nat.toDigits 10 d.digits).reverse.dropWhile (· == '0')).reverse

def lead (d : Decimal) : Int :=
  d.exponent + ((Nat.toDigits 10 d.digits).length - 1 : Int)

/-- A magnitude in a style. Zero has the one digit 0. -/
def Style.magnitudeText (style : Style) (mantissa : Nat) (exponent : Int) : List Char :=
  let d := shortest mantissa exponent style.tie
  let digits := if mantissa = 0 then ['0'] else d.significantDigits
  let lead := if mantissa = 0 then 0 else d.lead
  if style.positional.covers lead then positionalText digits lead style.wholeMark
  else exponentText digits lead style.plusExponent

/-- A magnitude rounded to a number of places after the point. -/
def fixedMagnitudeText (places : Nat) (mantissa : Nat) (exponent : Int) : List Char :=
  let rounded := Nat.toDigits 10 (roundTo mantissa exponent (-places) .toEven)
  let digits := rounded.leftpad (places + 1) '0'
  let whole := digits.length - places
  digits.take whole ++ (if places = 0 then [] else '.' :: digits.drop whole)

/-- A magnitude with an exponent part, its digits rounded to a number of places after the first. -/
def exponentMagnitudeText (places : Nat) (mantissa : Nat) (exponent : Int) : List Char :=
  if mantissa = 0 then exponentText (List.replicate (places + 1) '0') 0 false
  else
    let last := leadingPlace mantissa exponent - places
    let digits := Nat.toDigits 10 (roundTo mantissa exponent last .toEven)
    exponentText (digits.take (places + 1)) (last + (digits.length - 1 : Int)) false

/-- The text of a float, given the text of magnitudes. A negative zero keeps its sign; what is not a
number has none. -/
def signedText (magnitude : Nat → Int → List Char) (x : Float) : String :=
  match Parts.ofFloat x with
  | .notANumber => notANumberText
  | .infinite negative => (if negative then "-" else "") ++ infinityText
  | .finite negative mantissa exponent =>
      String.ofList ((if negative then ['-'] else []) ++ magnitude mantissa exponent)

def Style.text (style : Style) (x : Float) : String :=
  signedText style.magnitudeText x

/-- A float in full, with its shortest digits. -/
def text (x : Float) : String :=
  Style.plain.text x

/-- A float rounded to a number of places, halves going to the even neighbour. -/
def fixed (places : Nat) (x : Float) : String :=
  signedText (fixedMagnitudeText places) x

/-- A float with an exponent part and a number of places after its first digit. -/
def fixedExponent (places : Nat) (x : Float) : String :=
  signedText (exponentMagnitudeText places) x

/-- A text moved to the right end of a field; one that is too wide is kept whole. -/
def rightAlign (width : Nat) (s : String) : String :=
  String.ofList (s.toList.leftpad width ' ')

end EquationSolver.Decimal
