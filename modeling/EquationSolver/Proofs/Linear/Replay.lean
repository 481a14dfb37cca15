import EquationSolver.Proofs.Linear.Columns

/-!
# Replaying the log

The swaps and eliminations of a log can be carried out again on the rows of the system. Each of them
is then justified by the rows that the steps before it leave, and the last rows give the values.
-/

namespace EquationSolver.Linear

variable {α : Type} {n : Nat} [Scalar α]

/-- What the log of a solved system says: for each column the row that was swapped into the pivot's
place, if any, and the multiples that were taken from the rows below, and for each unknown its
value. -/
structure Log (α : Type) (n : Nat) where
  swapped : Fin n → Option (Fin n)
  factor : Fin n → Fin n → α
  value : Fin n → α

namespace Log

def swaps (log : Log α n) (i : Fin n) : List (Step α) :=
  (log.swapped i).toList.map fun (other : Fin n) => .swap i other

def eliminations (log : Log α n) (i : Fin n) (targets : List (Fin n)) : List (Step α) :=
  targets.map fun (k : Fin n) => .eliminate k i (log.factor i k)

def columns (log : Log α n) (columns : List (Fin n)) : List (Step α) :=
  columns.flatMap fun i => log.swaps i ++ log.eliminations i (Elimination.after i)

def resolutions (log : Log α n) : List (Step α) :=
  (List.finRange n).reverse.map fun (i : Fin n) => .resolved i (log.value i)

def steps (log : Log α n) : List (Step α) :=
  .initial :: (log.columns (List.finRange n) ++ .backSubstitution :: log.resolutions)

end Log

namespace Elimination

def logOf (rows : Rows α n) (value : Fin n → α) : Log α n where
  swapped i := if pivotRow (worked rows i) i = i then none else some (pivotRow (worked rows i) i)
  factor i k := factor (pivoted (worked rows i) i) i k
  value := value

variable (rows : Rows α n) (value : Fin n → α)

private theorem swaps_logOf (i : Fin n) : (logOf rows value).swaps i = swapSteps (worked rows i) i := by
  by_cases h : pivotRow (worked rows i) i = i
  · simp [Log.swaps, logOf, swapSteps, h]
  · simp [Log.swaps, logOf, swapSteps, h]

private theorem eliminations_logOf (i : Fin n) : (logOf rows value).eliminations i (after i) =
    eliminateSteps (pivoted (worked rows i) i) i := rfl

private theorem columns_logOf_cons (i : Fin n) (columns : List (Fin n)) :
    (logOf rows value).columns (i :: columns) = swapSteps (worked rows i) i ++
      eliminateSteps (pivoted (worked rows i) i) i ++ (logOf rows value).columns columns := by
  rw [Log.columns, List.flatMap_cons, swaps_logOf, eliminations_logOf]
  rfl

private theorem forward_steps {c : Nat} (hc : c ≤ n)
    (h : ∀ i : Fin n, c ≤ i → lacking rows i = false) :
    (forward ((List.finRange n).drop c) (worked rows c)).1 =
      (logOf rows value).columns ((List.finRange n).drop c) := by
  induction hd : n - c generalizing c with
  | zero =>
    obtain rfl : c = n := by omega
    have hnil : (List.finRange c).drop c = [] := by simp
    rw [hnil]
    rfl
  | succ d ih =>
    obtain ⟨i, rfl⟩ : ∃ i : Fin n, c = i := ⟨⟨c, by omega⟩, rfl⟩
    have ih' := ih (c := i + 1) i.isLt (fun k hk => h k (by omega)) (by omega)
    have hlarge : ¬Scalar.less (Scalar.magnitude ((pivoted (worked rows i) i).entry i i.castSucc))
        pivotTolerance = true := ne_true_of_eq_false (h i (Nat.le_refl _))
    rw [drop_finRange, columns_logOf_cons, ← ih', forward, worked_succ, if_neg hlarge]
    rfl

omit [Scalar α] in
private theorem resolvedSteps_ofFn (value : Fin n → α) : resolvedSteps (List.ofFn value) =
    (List.finRange n).reverse.map fun (i : Fin n) => .resolved i (value i) := by
  have hplaces : (List.ofFn value).zipIdx = (List.finRange n).map fun i => (value i, (i : Nat)) := by
    apply List.ext_getElem
    · simp
    · simp
  rw [resolvedSteps, hplaces, List.map_map, ← List.map_reverse]
  rfl

theorem log_of_solve {m : AugmentedMatrix α} {limits : SizeLimits} {s : Solution α}
    (h : solve m limits = .ok s) :
    (∀ i, lacking m.rows i = false) ∧ s.values = List.ofFn (unknown (worked m.rows m.size)) ∧
      s.steps = (logOf m.rows (unknown (worked m.rows m.size))).steps := by
  have hforward := forward_worked m.rows (Nat.zero_le m.size)
  rw [List.drop_zero, worked] at hforward
  simp only [solve, eliminate] at h
  split at h
  · split at h
    · next heq => cases h
    · next steps rows heq =>
      rw [heq] at hforward
      rcases hforward with ⟨hok, hall⟩ | ⟨i, -, -, herr⟩
      · obtain rfl : rows = worked m.rows m.size := by simpa using hok
        have hall' : ∀ i, lacking m.rows i = false := fun i => hall i (Nat.zero_le _)
        have hvalues := backSubstitute_eq_ofFn (worked m.rows m.size)
        have hsteps := forward_steps m.rows (unknown (worked m.rows m.size)) (Nat.zero_le m.size)
          fun i _ => hall' i
        rw [List.drop_zero, worked, heq] at hsteps
        cases h
        refine ⟨hall', hvalues, ?_⟩
        change _ :: (steps ++ _) = _
        rw [hvalues, resolvedSteps_ofFn]
        exact congrArg (fun columns => _ :: (columns ++ _)) hsteps
      · cases herr
  · cases h

end Elimination

open Elimination

namespace Elimination

end Elimination

end EquationSolver.Linear
