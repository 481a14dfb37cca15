import EquationSolver.Scalar

/-!
# Augmented matrices

A system of `n` linear equations in `n` unknowns is a matrix of `n` rows, each of `n` coefficients and
the constant on the other side. An augmented matrix has at least one row, and finite entries only.
-/

namespace EquationSolver.Linear

variable {α : Type}

/-- Rows of `n` coefficients and a constant. -/
abbrev Rows (α : Type) (n : Nat) := Vector (Vector α (n + 1)) n

/-- The entry at row `i` and column `j`. -/
def Rows.entry {n : Nat} (rows : Rows α n) (i : Fin n) (j : Fin (n + 1)) : α :=
  (rows.get i).get j

theorem Rows.entry_ofFn {n : Nat} (row : Fin n → Vector α (n + 1)) (i : Fin n) (j : Fin (n + 1)) :
    Rows.entry (Vector.ofFn row) i j = (row i).get j :=
  congrArg (Vector.get · j) (Vector.getElem_ofFn i.isLt)

theorem Rows.entry_ofFn_ofFn {n : Nat} (entry : Fin n → Fin (n + 1) → α) (i : Fin n)
    (j : Fin (n + 1)) : Rows.entry (Vector.ofFn fun i => Vector.ofFn (entry i)) i j = entry i j := by
  rw [Rows.entry_ofFn]
  exact Vector.getElem_ofFn j.isLt

theorem Rows.ext {n : Nat} {rows rows' : Rows α n} (h : ∀ i j, rows.entry i j = rows'.entry i j) :
    rows = rows' := by
  apply Vector.ext
  intro i hi
  apply Vector.ext
  intro j hj
  exact h ⟨i, hi⟩ ⟨j, hj⟩

/-- Why a list of rows is no augmented matrix. -/
inductive MatrixError (α : Type)
  | empty
  | ragged (row len expected : Nat)
  | nonFinite (row col : Nat) (value : α)
deriving Repr

/-- A system of linear equations with finite entries. -/
structure AugmentedMatrix (α : Type) [Scalar α] where
  size : Nat
  rows : Rows α size
  size_pos : 0 < size
  finite : ∀ (i : Fin size) (j : Fin (size + 1)), Scalar.isFinite (rows.entry i j) = true

variable [Scalar α]

/-- What is wrong with a row of a matrix of `n` rows: its length, or else its first entry that is not
finite. -/
def rowFault? (n row : Nat) (values : List α) : Option (MatrixError α) :=
  if values.length ≠ n + 1 then some (.ragged row values.length (n + 1))
  else (Scalar.firstNonFinite? values).map fun (value, col) => .nonFinite row col value

theorem rowFault?_eq_none_iff {n row : Nat} {values : List α} :
    rowFault? n row values = none ↔
      values.length = n + 1 ∧ ∀ v ∈ values, Scalar.isFinite v = true := by
  simp only [rowFault?]
  split
  · rename_i wrong
    simp only [reduceCtorEq, false_iff]
    exact fun h => wrong h.1
  · rename_i right
    rw [Option.map_eq_none_iff, Scalar.firstNonFinite?_eq_none_iff]
    exact ⟨fun h => ⟨Decidable.not_not.mp right, h⟩, fun h => h.2⟩

/-- What is wrong with a list of rows, in the first row that has a fault. -/
def fault? (rows : List (List α)) : Option (MatrixError α) :=
  if rows.isEmpty then some .empty
  else rows.zipIdx.findSome? fun (values, row) => rowFault? rows.length row values

theorem fault?_eq_none_iff {rows : List (List α)} :
    fault? rows = none ↔ 0 < rows.length ∧ ∀ row ∈ rows, row.length = rows.length + 1 ∧
      ∀ v ∈ row, Scalar.isFinite v = true := by
  simp only [fault?]
  split
  · rename_i none
    simp only [reduceCtorEq, false_iff]
    rw [List.isEmpty_iff] at none
    simp [none]
  · rename_i some
    rw [List.findSome?_eq_none_iff]
    constructor
    · intro h
      refine ⟨List.length_pos_iff.mpr fun e => some (by simp [e]), fun row hrow => ?_⟩
      obtain ⟨i, hi, rfl⟩ := List.mem_iff_getElem.mp hrow
      exact rowFault?_eq_none_iff.mp
        (h (rows[i], i) (List.mk_mem_zipIdx_iff_getElem?.mpr (by simp)))
    · rintro ⟨_, h⟩ ⟨values, row⟩ hrow
      exact rowFault?_eq_none_iff.mpr (h values (List.fst_mem_of_mem_zipIdx hrow))

namespace AugmentedMatrix

def ofRows (rows : List (List α)) : Except (MatrixError α) (AugmentedMatrix α) :=
  match faultless : fault? rows with
  | some error => .error error
  | none =>
      have valid := fault?_eq_none_iff.mp faultless
      .ok {
        size := rows.length
        rows := Vector.ofFn fun i =>
          ⟨(rows.get i).toArray, by
            rw [List.size_toArray]
            exact (valid.2 _ (List.get_mem rows i)).1⟩
        size_pos := valid.1
        finite := fun i j => by
          rw [Rows.entry_ofFn]
          exact (valid.2 _ (List.get_mem rows i)).2 _ (List.getElem_mem _) }

/-- The matrix of a size whose entries are a function of row and column. -/
def ofEntries (n : Nat) (entry : Fin n → Fin (n + 1) → α)
    (finite : ∀ i j, Scalar.isFinite (entry i j) = true) :
    Except (MatrixError α) (AugmentedMatrix α) :=
  if positive : 0 < n then
    .ok {
      size := n
      rows := Vector.ofFn fun i => Vector.ofFn (entry i)
      size_pos := positive
      finite := fun i j => by
        rw [Rows.entry_ofFn_ofFn]
        exact finite i j }
  else .error .empty

def zeros (n : Nat) : Except (MatrixError α) (AugmentedMatrix α) :=
  ofEntries n (fun _ _ => Scalar.zero) fun _ _ => Scalar.isFinite_zero

/-- The entry at row `i` and column `j`, if the matrix has them. -/
def entry? (m : AugmentedMatrix α) (i j : Nat) : Option α :=
  m.rows[i]?.bind (·[j]?)

theorem isFinite_of_entry? {m : AugmentedMatrix α} {i j : Nat} {value : α}
    (h : m.entry? i j = some value) : Scalar.isFinite value = true := by
  obtain ⟨row, hrow, hvalue⟩ := Option.bind_eq_some_iff.mp h
  obtain ⟨hi, rfl⟩ := Vector.getElem?_eq_some_iff.mp hrow
  obtain ⟨hj, rfl⟩ := Vector.getElem?_eq_some_iff.mp hvalue
  exact m.finite ⟨i, hi⟩ ⟨j, hj⟩

/-- What a matrix has at a place that a resized one has too: coefficients keep their place, and the
constant moves along with the last column. -/
def kept? (m : AugmentedMatrix α) (n i j : Nat) : Option α :=
  if j = n then m.entry? i m.size else if j < m.size then m.entry? i j else none

/-- The entry of a resized matrix; what the matrix did not have is zero. -/
def resizedEntry (m : AugmentedMatrix α) (n i j : Nat) : α :=
  (m.kept? n i j).getD Scalar.zero

theorem isFinite_of_kept? {m : AugmentedMatrix α} {n i j : Nat} {value : α}
    (h : m.kept? n i j = some value) : Scalar.isFinite value = true := by
  unfold kept? at h
  split at h
  · exact isFinite_of_entry? h
  · split at h
    · exact isFinite_of_entry? h
    · cases h

theorem isFinite_resizedEntry (m : AugmentedMatrix α) (n i j : Nat) :
    Scalar.isFinite (m.resizedEntry n i j) = true := by
  unfold resizedEntry
  cases h : m.kept? n i j with
  | none => exact Scalar.isFinite_zero
  | some value => exact isFinite_of_kept? h

/-- The matrix with another number of equations and unknowns. -/
def resized (m : AugmentedMatrix α) (n : Nat) : Except (MatrixError α) (AugmentedMatrix α) :=
  ofEntries n (fun i j => m.resizedEntry n i j) fun i j => m.isFinite_resizedEntry n i j

def toLists (m : AugmentedMatrix α) : List (List α) :=
  m.rows.toList.map Vector.toList

def row? (m : AugmentedMatrix α) (i : Nat) : Option (List α) :=
  m.rows[i]?.map Vector.toList

end AugmentedMatrix

end EquationSolver.Linear
