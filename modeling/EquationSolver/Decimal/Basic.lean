/-!
# Decimals of binary numbers

A finite float is `mantissa · 2 ^ exponent`, so its decimals can be computed exactly: over a common
denominator both the number and a power of ten are natural numbers. This module takes floats apart
and rounds such numbers to a decimal place.
-/

namespace EquationSolver

/-- The decimal number `digits · 10 ^ exponent`. -/
structure Decimal where
  digits : Nat
  exponent : Int
deriving DecidableEq, Repr

namespace Decimal

/-- What a float stands for. A finite value is `mantissa · 2 ^ exponent`, with a sign. -/
inductive Parts
  | notANumber
  | infinite (negative : Bool)
  | finite (negative : Bool) (mantissa : Nat) (exponent : Int)
deriving DecidableEq, Repr

def leastExponent : Int := -1074

/-- Takes a float apart by its sign bit, its 11 exponent bits and its 52 fraction bits. -/
def Parts.ofFloat (x : Float) : Parts :=
  let bits := x.toBits.toNat
  let negative := bits / Nat.pow 2 63 % 2 == 1
  let scale : Nat := bits / Nat.pow 2 52 % Nat.pow 2 11
  let fraction := bits % Nat.pow 2 52
  if scale = Nat.pow 2 11 - 1 then
    if fraction = 0 then .infinite negative else .notANumber
  else if scale = 0 then .finite negative fraction leastExponent
  else .finite negative (Nat.pow 2 52 + fraction) (leastExponent + ((scale : Int) - 1))

/-- Where a quotient goes that lies halfway between two whole numbers. -/
inductive Tie
  | up
  | toEven
deriving DecidableEq, Repr

def roundDiv (num den : Nat) (tie : Tie) : Nat :=
  let below := num / den
  match compare (2 * (num % den)) den, tie with
  | .lt, _ => below
  | .gt, _ => below + 1
  | .eq, .up => below + 1
  | .eq, .toEven => below + below % 2

/-- A rounded quotient is at most half a unit away from the exact one. -/
theorem roundDiv_near (num den : Nat) (tie : Tie) (h : 0 < den) :
    2 * (roundDiv num den tie * den) ≤ 2 * num + den ∧
      2 * num ≤ 2 * (roundDiv num den tie * den) + den := by
  have split := Nat.div_add_mod num den
  have small := Nat.mod_lt num h
  simp only [roundDiv]
  generalize num / den = below at *
  generalize num % den = rest at *
  have next : (below + 1) * den = den * below + den := by rw [Nat.add_mul, Nat.mul_comm, Nat.one_mul]
  have here : below * den = den * below := Nat.mul_comm ..
  split
  · rename_i hc; rw [Nat.compare_eq_lt] at hc; rw [here]; omega
  · rename_i hc; rw [Nat.compare_eq_gt] at hc; rw [next]; omega
  · rename_i hc; rw [Nat.compare_eq_eq] at hc; rw [next]; omega
  · rename_i hc
    rw [Nat.compare_eq_eq] at hc
    rcases Nat.mod_two_eq_zero_or_one below with hb | hb
    · rw [hb, Nat.add_zero, here]; omega
    · rw [hb, next]; omega

/-- The binary unit `2 ^ exponent` over the denominator it shares with `10 ^ place`. -/
def unit (exponent place : Int) : Nat :=
  Nat.pow 2 exponent.toNat * Nat.pow 10 (-place).toNat

/-- The decimal step `10 ^ place` over the denominator it shares with `2 ^ exponent`. -/
def step (exponent place : Int) : Nat :=
  Nat.pow 10 place.toNat * Nat.pow 2 (-exponent).toNat

theorem unit_pos (exponent place : Int) : 0 < unit exponent place :=
  Nat.mul_pos (Nat.pow_pos (by decide)) (Nat.pow_pos (by decide))

theorem step_pos (exponent place : Int) : 0 < step exponent place :=
  Nat.mul_pos (Nat.pow_pos (by decide)) (Nat.pow_pos (by decide))

/-- The multiple of `10 ^ place` nearest to `mantissa · 2 ^ exponent`. -/
def roundTo (mantissa : Nat) (exponent place : Int) (tie : Tie) : Nat :=
  roundDiv (mantissa * unit exponent place) (step exponent place) tie

/-- How many decimal digits a number has; zero has none. -/
def digitCount (n : Nat) : Nat :=
  if n = 0 then 0 else (Nat.toDigits 10 n).length

/-- The exponent of the leading decimal digit of `mantissa · 2 ^ exponent`: the greatest `e` with
`10 ^ e` at most that number. Below one it is found on the reciprocal. -/
def leadingPlace (mantissa : Nat) (exponent : Int) : Int :=
  let num := mantissa * unit exponent 0
  let den := step exponent 0
  if den ≤ num then digitCount (num / den) - 1
  else -(digitCount ((den - 1) / num))

end Decimal

end EquationSolver
