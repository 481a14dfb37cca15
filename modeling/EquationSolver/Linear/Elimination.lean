import EquationSolver.Decimal.Layout
import EquationSolver.Linear.Matrix

/-!
# Gaussian elimination

Column by column, the row with the greatest magnitude in the column is swapped into the place of the
pivot, and multiples of it are taken from the rows below, which leaves zeros under the pivot. A
column without a pivot of some magnitude has no unique solution. The last unknown can then be read
off, and after it the others, from the last to the first. Everything done is logged.
-/

namespace EquationSolver.Linear

variable {α : Type} {n : Nat}

/-- The sizes of the systems that are solved. -/
structure SizeLimits where
  least : Nat
  greatest : Nat
  least_pos : 0 < least
  least_le_greatest : least ≤ greatest

/-- Why two numbers are no limits on sizes. -/
inductive SizeLimitsError
  | zeroLeast
  | range (least greatest : Nat)
deriving DecidableEq, Repr

def SizeLimitsError.message : SizeLimitsError → String
  | .zeroLeast => "min_size must be at least 1"
  | .range least greatest => s!"max_size {greatest} is below min_size {least}"

namespace SizeLimits

/-- The limits that hold where none are given: two to ten equations. -/
def standard : SizeLimits := ⟨2, 10, by decide, by decide⟩

/-- The limits that two numbers give, if they are limits. -/
def make (least greatest : Nat) : Except SizeLimitsError SizeLimits :=
  if positive : 0 < least then
    if ordered : least ≤ greatest then .ok ⟨least, greatest, positive, ordered⟩
    else .error (.range least greatest)
  else .error .zeroLeast

def admits (limits : SizeLimits) (size : Nat) : Bool :=
  limits.least ≤ size && size ≤ limits.greatest

end SizeLimits

/-- One entry of the log. Rows and unknowns are counted from zero. -/
inductive Step (α : Type)
  | initial
  | swap (row other : Nat)
  /-- A multiple of the pivot's row was taken from the target. -/
  | eliminate (target pivotRow : Nat) (factor : α)
  | backSubstitution
  | resolved (unknown : Nat) (value : α)
deriving Repr, DecidableEq

/-- Why a system was not solved. -/
inductive EliminationError (α : Type)
  | unsupportedSize (size least greatest : Nat)
  | singular (column : Nat) (pivot : α)
deriving Repr

/-- The values of the unknowns, and the log. -/
structure Solution (α : Type) where
  values : List α
  steps : List (Step α)
deriving Repr

namespace Elimination

/-- The rows below a row, in order; also the columns of the coefficients behind a pivot. -/
def after (i : Fin n) : List (Fin n) :=
  (List.finRange n).filter fun k => i < k

theorem mem_after {i k : Fin n} : k ∈ after i ↔ i < k := by
  simp [after]

variable [Scalar α]

/-- The least magnitude that a pivot must have. -/
def pivotTolerance : α := 1e-10

/-- The first row of greatest magnitude in a column, among the pivot's place and the rows below. -/
def pivotRow (rows : Rows α n) (i : Fin n) : Fin n :=
  (after i).foldl
    (fun best k =>
      if Scalar.less (Scalar.magnitude (rows.entry best i.castSucc))
          (Scalar.magnitude (rows.entry k i.castSucc))
      then k else best)
    i

def pivoted (rows : Rows α n) (i : Fin n) : Rows α n :=
  rows.swap i (pivotRow rows i) i.isLt (pivotRow rows i).isLt

theorem entry_pivoted (rows : Rows α n) (i k : Fin n) (j : Fin (n + 1)) :
    (pivoted rows i).entry k j =
      rows.entry (if k = i then pivotRow rows i else if k = pivotRow rows i then i else k) j := by
  refine congrArg (Vector.get · j)
    ((Vector.getElem_swap i.isLt (pivotRow rows i).isLt k.isLt).trans ?_)
  simp only [← Fin.ext_iff]
  split
  · rfl
  · split <;> rfl

/-- The multiple of the pivot's row that clears the entry of a row below. -/
def factor (rows : Rows α n) (i k : Fin n) : α :=
  rows.entry k i.castSucc / rows.entry i i.castSucc

/-- Takes the multiples of the pivot's row from the rows below it, from the pivot's column on. -/
def clearBelow (rows : Rows α n) (i : Fin n) : Rows α n :=
  Vector.ofFn fun k =>
    if i < k then
      let multiple := factor rows i k
      Vector.ofFn fun j =>
        if i.castSucc ≤ j then rows.entry k j - multiple * rows.entry i j else rows.entry k j
    else rows.get k

theorem entry_clearBelow (rows : Rows α n) (i k : Fin n) (j : Fin (n + 1)) :
    (clearBelow rows i).entry k j =
      if i < k ∧ i.castSucc ≤ j then rows.entry k j - factor rows i k * rows.entry i j
      else rows.entry k j := by
  rw [clearBelow, Rows.entry_ofFn]
  by_cases below : i < k
  · rw [if_pos below]
    refine (Vector.getElem_ofFn j.isLt).trans ?_
    simp only [below, true_and]
  · rw [if_neg below, if_neg fun both => below both.1]
    rfl

/-- The log of bringing the pivot of a column into place. -/
def swapSteps (rows : Rows α n) (i : Fin n) : List (Step α) :=
  if pivotRow rows i = i then [] else [.swap i (pivotRow rows i)]

def eliminateSteps (rows : Rows α n) (i : Fin n) : List (Step α) :=
  (after i).map fun (k : Fin n) => .eliminate k i (factor rows i k)

/-- Eliminates columns one after the other, with the log of what was done up to the end or to the
first column without a pivot. -/
def forward : List (Fin n) → Rows α n → List (Step α) × Except (EliminationError α) (Rows α n)
  | [], rows => ([], .ok rows)
  | i :: columns, rows =>
      let swapped := pivoted rows i
      let pivot := swapped.entry i i.castSucc
      if Scalar.less (Scalar.magnitude pivot) pivotTolerance then
        (swapSteps rows i, .error (.singular i pivot))
      else
        let (steps, result) := forward columns (clearBelow swapped i)
        (swapSteps rows i ++ eliminateSteps swapped i ++ steps, result)

/-- The value of an unknown, given the values of the unknowns after it. -/
def resolve (rows : Rows α n) (i : Fin n) (later : List α) : α :=
  let known := Scalar.sum ((after i).zipWith (fun j value => rows.entry i j.castSucc * value) later)
  (rows.entry i (Fin.last n) - known) / rows.entry i i.castSucc

/-- The values of all unknowns, found from the last to the first. -/
def backSubstitute (rows : Rows α n) : List α :=
  (List.finRange n).foldr (fun i later => resolve rows i later :: later) []

theorem length_backSubstitute (rows : Rows α n) : (backSubstitute rows).length = n := by
  have length : ∀ unknowns : List (Fin n),
      (unknowns.foldr (fun i later => resolve rows i later :: later) []).length =
        unknowns.length := fun unknowns => by
    induction unknowns with
    | nil => rfl
    | cons i unknowns ih => simp [ih]
  rw [backSubstitute, length, List.length_finRange]

def resolvedSteps (values : List α) : List (Step α) :=
  (values.zipIdx.map fun (value, i) => .resolved i value).reverse

end Elimination

/-- An elimination that ended: the log up to its end, and what it returned. -/
structure EliminationRun (α : Type) where
  steps : List (Step α)
  result : Except (EliminationError α) (Solution α)

open Elimination in
/-- Solves a system whose size lies within limits. -/
def eliminate [Scalar α] (m : AugmentedMatrix α) (limits : SizeLimits) : EliminationRun α :=
  if limits.admits m.size then
    match forward (List.finRange m.size) m.rows with
    | (steps, .error error) => ⟨.initial :: steps, .error error⟩
    | (steps, .ok rows) =>
        let values := backSubstitute rows
        let steps := .initial :: (steps ++ .backSubstitution :: resolvedSteps values)
        ⟨steps, .ok ⟨values, steps⟩⟩
  else ⟨[], .error (.unsupportedSize m.size limits.least limits.greatest)⟩

/-- The solution of a system whose size lies within limits. -/
def solve [Scalar α] (m : AugmentedMatrix α) (limits : SizeLimits) :
    Except (EliminationError α) (Solution α) :=
  (eliminate m limits).result

/-- An error of a matrix in words; rows and columns are counted from one. -/
def MatrixError.message : MatrixError Float → String
  | .empty => "matrix has no rows"
  | .ragged row len expected => s!"row {row + 1} has {len} entries, expected {expected}"
  | .nonFinite row col value => s!"entry ({row + 1}, {col + 1}) is not finite: " ++ Decimal.text value

def EliminationError.message : EliminationError Float → String
  | .unsupportedSize size least greatest =>
      s!"system size {size} is outside the supported range {least}..={greatest}"
  | .singular column pivot =>
      "matrix is singular: pivot " ++ Decimal.Style.exponential.text pivot ++ s!" in column {column}"

/-- An entry of the log in words; rows and unknowns are counted from one. -/
def Step.text : Step Float → String
  | .initial => "Initial augmented matrix created"
  | .swap row other =>
      s!"Swapped row {row + 1} with row {other + 1} for better numerical stability"
  | .eliminate target pivotRow factor =>
      s!"Row {target + 1} = Row {target + 1} - (" ++ Decimal.fixed 4 factor ++
        s!") × Row {pivotRow + 1}"
  | .backSubstitution => "Starting back substitution"
  | .resolved unknown value => s!"x{unknown + 1} = " ++ Decimal.fixed 6 value

end EquationSolver.Linear
