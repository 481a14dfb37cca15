import EquationSolver.Decimal.Basic

/-!
# Shortest decimals

Among the decimals that read back as a given float, those with the fewest digits are wanted, and of
these the nearest. The reals that round to a float are an interval around it. On the grid of the
multiples of a power of ten, if any point lies in the interval then one of the two neighbours of the
float does; so trying the grids from the coarsest on finds the fewest digits.
-/

namespace EquationSolver.Decimal

/-- Distance from a float down to the end of its rounding interval, in quarters of its unit. At a
power of two the float below is only half as far away as the one above. -/
def lowerGap (mantissa : Nat) (exponent : Int) : Nat :=
  if mantissa = Nat.pow 2 52 ∧ exponent ≠ leastExponent then 1 else 2

/-- Whether `digits · 10 ^ place` rounds to `mantissa · 2 ^ exponent`. The ends of the interval
round to an even mantissa. -/
def readsBack (mantissa : Nat) (exponent place : Int) (digits : Nat) : Bool :=
  let quarter := unit (exponent - 2) place
  let low := (4 * mantissa - lowerGap mantissa exponent) * quarter
  let high := (4 * mantissa + 2) * quarter
  let point := digits * step (exponent - 2) place
  if mantissa % 2 = 0 then low ≤ point && point ≤ high else low < point && point < high

/-- The multiple of `10 ^ place` that reads back as `mantissa · 2 ^ exponent`, if there is one: the
nearer neighbour if both do. -/
def onGrid? (mantissa : Nat) (exponent : Int) (tie : Tie) (place : Int) : Option Nat :=
  let below := mantissa * unit exponent place / step exponent place
  match readsBack mantissa exponent place below, readsBack mantissa exponent place (below + 1) with
  | true, true => some (roundTo mantissa exponent place tie)
  | true, false => some below
  | false, true => some (below + 1)
  | false, false => none

/-- What a grid yields is one of the two neighbours of the number. -/
theorem onGrid?_eq_some {mantissa : Nat} {exponent place : Int} {tie : Tie} {digits : Nat}
    (h : onGrid? mantissa exponent tie place = some digits) :
    readsBack mantissa exponent place digits = true := by
  simp only [onGrid?] at h
  split at h
  · rename_i low high
    simp only [Option.some.injEq, roundTo, roundDiv] at h
    rw [← h]
    split
    · exact low
    · exact high
    · exact high
    · rcases Nat.mod_two_eq_zero_or_one (mantissa * unit exponent place / step exponent place) with hb | hb
      · rw [hb]; exact low
      · rw [hb]; exact high
  · rename_i low _
    rw [← Option.some.inj h]; exact low
  · rename_i _ high
    rw [← Option.some.inj h]; exact high
  · cases h

/-- The shortest decimal that reads back as `mantissa · 2 ^ exponent`. Seventeen digits always
suffice. -/
def shortest (mantissa : Nat) (exponent : Int) (tie : Tie) : Decimal :=
  let lead := leadingPlace mantissa exponent
  let found := (List.range 17).findSome? fun (extra : Nat) =>
    (onGrid? mantissa exponent tie (lead - extra)).map (⟨·, lead - extra⟩)
  found.getD ⟨roundTo mantissa exponent (lead - 16) tie, lead - 16⟩

end EquationSolver.Decimal
