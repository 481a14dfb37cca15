import EquationSolver.Proofs.Linear.Columns
import EquationSolver.Proofs.Rationals
import Mathlib.Algebra.Order.BigOperators.Group.LocallyFinite
import Mathlib.LinearAlgebra.LinearIndependent.Defs
import Mathlib.Order.Interval.Finset.Fin
import Mathlib.Tactic.FieldSimp
import Mathlib.Tactic.Linarith
import Mathlib.Tactic.NormNum

/-!
# Elimination over exact numbers

Swaps and the elimination of a column keep the solutions of a system. The rows behind the last column
make a staircase of pivots that are not zero, and such rows have one solution, found from the last
unknown up.
-/

namespace EquationSolver.Linear

open Elimination

variable {n : Nat}

def Solves (rows : Rows ℚ n) (x : Fin n → ℚ) : Prop :=
  ∀ r : Fin n, ∑ j : Fin n, rows.entry r j.castSucc * x j = rows.entry r (Fin.last n)

namespace Elimination

variable {rows : Rows ℚ n} {i : Fin n}

private theorem solves_pivoted (rows : Rows ℚ n) (i : Fin n) (x : Fin n → ℚ) :
    Solves (pivoted rows i) x ↔ Solves rows x := by
  simp only [Solves, entry_pivoted_swap]
  exact (Equiv.swap i (pivotRow rows i)).forall_congr_right
    (q := fun r => ∑ j : Fin n, rows.entry r j.castSucc * x j = rows.entry r (Fin.last n))

private theorem entry_clearBelow_of_zero (h : ∀ j : Fin n, j < i → rows.entry i j.castSucc = 0)
    {k : Fin n} (hk : i < k) (j : Fin (n + 1)) :
    (clearBelow rows i).entry k j = rows.entry k j - factor rows i k * rows.entry i j := by
  rw [entry_clearBelow]
  by_cases hj : i.castSucc ≤ j
  · rw [if_pos ⟨hk, hj⟩]
  · have hlt : (j : Nat) < n := by
      have := i.isLt
      simp only [Fin.le_def, Fin.val_castSucc, not_le] at hj
      omega
    have hzero : rows.entry i j = 0 := h ⟨j, hlt⟩ (by simpa [Fin.lt_def, Fin.le_def] using hj)
    rw [if_neg fun hboth => hj hboth.2, hzero]
    ring

private theorem solves_clearBelow (h : ∀ j : Fin n, j < i → rows.entry i j.castSucc = 0) (x : Fin n → ℚ) :
    Solves (clearBelow rows i) x ↔ Solves rows x := by
  have hkeep : ∀ k, ¬i < k → ∀ j, (clearBelow rows i).entry k j = rows.entry k j := by
    intro k hk j
    rw [entry_clearBelow, if_neg fun hboth => hk hboth.1]
  have hsum : ∀ k, i < k → ∑ j : Fin n, (clearBelow rows i).entry k j.castSucc * x j =
      ∑ j : Fin n, rows.entry k j.castSucc * x j -
        factor rows i k * ∑ j : Fin n, rows.entry i j.castSucc * x j := fun k hk => by
    simp only [entry_clearBelow_of_zero h hk, sub_mul, Finset.sum_sub_distrib, Finset.mul_sum,
      mul_assoc]
  constructor
  · intro hx k
    have hi := hx i
    simp only [hkeep i (lt_irrefl i)] at hi
    by_cases hk : i < k
    · have hrow := hx k
      rw [hsum k hk, entry_clearBelow_of_zero h hk, hi] at hrow
      linarith
    · have hrow := hx k
      simpa only [hkeep k hk] using hrow
  · intro hx k
    by_cases hk : i < k
    · rw [hsum k hk, entry_clearBelow_of_zero h hk, hx k, hx i]
    · simpa only [hkeep k hk] using hx k

/-- Rows whose first columns are zero below pivots that are not. -/
structure Staircase (rows : Rows ℚ n) (c : Nat) : Prop where
  zero_below : ∀ j k : Fin n, (j : Nat) < c → j < k → rows.entry k j.castSucc = 0
  pivot_ne_zero : ∀ j : Fin n, (j : Nat) < c → rows.entry j j.castSucc ≠ 0

private theorem Staircase.pivoted (h : Staircase rows i) : Staircase (pivoted rows i) i := by
  constructor
  · intro j k hj hk
    rw [entry_pivoted_swap]
    apply h.zero_below j _ hj
    rcases lt_or_ge k i with hlt | hge
    · rw [swap_pivotRow_of_lt rows hlt]
      exact hk
    · exact lt_of_lt_of_le hj (le_swap_pivotRow rows hge)
  · intro j hj
    rw [entry_pivoted_swap, swap_pivotRow_of_lt rows hj]
    exact h.pivot_ne_zero j hj

private theorem Staircase.clearBelow (h : Staircase rows i) (hpivot : rows.entry i i.castSucc ≠ 0) :
    Staircase (clearBelow rows i) (i + 1) := by
  have hrow : ∀ j : Fin n, j < i → rows.entry i j.castSucc = 0 := fun j hj => h.zero_below j i hj hj
  constructor
  · intro j k hj hk
    by_cases hik : i < k
    · rw [entry_clearBelow_of_zero hrow hik]
      rcases Nat.lt_succ_iff_lt_or_eq.mp hj with hlt | heq
      · rw [h.zero_below j k hlt hk, hrow j hlt]
        ring
      · obtain rfl : j = i := Fin.ext heq
        exact sub_eq_zero.mpr (div_mul_cancel₀ _ hpivot).symm
    · rw [entry_clearBelow, if_neg fun hboth => hik hboth.1]
      exact h.zero_below j k (by omega) hk
  · intro j hj
    rw [entry_clearBelow, if_neg (by omega)]
    rcases Nat.lt_succ_iff_lt_or_eq.mp hj with hlt | heq
    · exact h.pivot_ne_zero j hlt
    · obtain rfl : j = i := Fin.ext heq
      exact hpivot

private theorem pivotTolerance_eq : (pivotTolerance : ℚ) = 1 / 10 ^ 10 := by
  simp only [pivotTolerance]
  norm_num

private theorem lacking_eq_true_iff (rows : Rows ℚ n) (i : Fin n) :
    lacking rows i = true ↔ |pivot rows i| < 1 / 10 ^ 10 := by
  rw [lacking, Rationals.magnitude_eq_abs, pivotTolerance_eq]
  exact decide_eq_true_iff

/-- Eliminated columns keep the solutions and leave a staircase. -/
theorem staircase_worked {c : Nat} (hc : c ≤ n)
    (h : ∀ k : Fin n, (k : Nat) < c → lacking rows k = false) :
    Staircase (worked rows c) c ∧ ∀ x, Solves (worked rows c) x ↔ Solves rows x := by
  induction c with
  | zero => exact ⟨⟨fun _ _ hj => by omega, fun _ hj => by omega⟩, fun x => Iff.rfl⟩
  | succ c ih =>
    obtain ⟨hstairs, hsolves⟩ := ih (by omega) fun k hk => h k (by omega)
    obtain ⟨i, rfl⟩ : ∃ i : Fin n, c = i := ⟨⟨c, hc⟩, rfl⟩
    have hpivoted := hstairs.pivoted
    -- A pivot that is not lacking has some magnitude, so it is not zero.
    have hpivot : (pivoted (worked rows i) i).entry i i.castSucc ≠ 0 := by
      intro hzero
      have hlack : lacking rows i = true := by
        rw [lacking_eq_true_iff, pivot, hzero]
        norm_num
      simp [h i (Nat.lt_succ_self _)] at hlack
    have hrow : ∀ j : Fin n, j < i → (pivoted (worked rows i) i).entry i j.castSucc = 0 :=
      fun j hj => hpivoted.zero_below j i hj hj
    rw [worked_succ, eliminated]
    constructor
    · exact hpivoted.clearBelow hpivot
    · intro x
      rw [solves_clearBelow hrow, solves_pivoted, hsolves]

private theorem resolve_eq (rows : Rows ℚ n) (i : Fin n) (x : Fin n → ℚ) :
    resolve rows i ((after i).map x) =
      (rows.entry i (Fin.last n) - ∑ j ∈ Finset.Ioi i, rows.entry i j.castSucc * x j) /
        rows.entry i i.castSucc := by
  -- The list sum of the program is the sum over the places behind `i`.
  have hplaces : (after i).toFinset = Finset.Ioi i := by
    ext k
    simp [mem_after]
  have hsum : ∑ j ∈ Finset.Ioi i, rows.entry i j.castSucc * x j =
      ((after i).map fun j => rows.entry i j.castSucc * x j).sum := by
    rw [← hplaces, List.sum_toFinset _ (nodup_after i)]
  rw [resolve, List.zipWith_map_right, List.zipWith_self, hsum, List.sum_eq_foldl]
  rfl

private theorem Staircase.solves_iff (h : Staircase rows n) (x : Fin n → ℚ) :
    Solves rows x ↔ ∀ i, x i = resolve rows i ((after i).map x) := by
  apply forall_congr'
  intro i
  have hpivot := h.pivot_ne_zero i i.isLt
  have hsum : ∑ j : Fin n, rows.entry i j.castSucc * x j =
      rows.entry i i.castSucc * x i + ∑ j ∈ Finset.Ioi i, rows.entry i j.castSucc * x j := by
    rw [Finset.add_sum_Ioi_eq_sum_Ici i (f := fun j => rows.entry i j.castSucc * x j)]
    symm
    apply Finset.sum_subset (Finset.subset_univ _)
    intro j _ hj
    have hlt : j < i := by simpa using hj
    rw [h.zero_below j i j.isLt hlt, zero_mul]
  rw [resolve_eq, hsum, eq_div_iff hpivot]
  constructor
  · intro heq
    linarith
  · intro heq
    linarith

private theorem abs_le_pivotRow (rows : Rows ℚ n) {i k : Fin n} (hk : i ≤ k) :
    |rows.entry k i.castSucc| ≤ |rows.entry (pivotRow rows i) i.castSucc| := by
  apply key_le_pivotRow (fun k => |rows.entry k i.castSucc|) _ hk
  intro j k _ _
  rw [Rationals.magnitude_eq_abs, Rationals.magnitude_eq_abs]
  exact decide_eq_true_iff

end Elimination

def columns (rows : Rows ℚ n) (j : Fin n) : Fin n → ℚ :=
  fun r => rows.entry r j.castSucc

private theorem Solves.ne_of_dependent {rows : Rows ℚ n} (h : ¬LinearIndependent ℚ (columns rows))
    {x : Fin n → ℚ} (hx : Solves rows x) : ∃ y, Solves rows y ∧ y ≠ x := by
  obtain ⟨g, hg, i, hi⟩ := Fintype.not_linearIndependent_iff.mp h
  have hkernel : ∀ r : Fin n, ∑ j : Fin n, rows.entry r j.castSucc * g j = 0 := fun r => by
    have hr := congrFun hg r
    simpa [columns, mul_comm] using hr
  refine ⟨fun j => x j + g j, ?_, ?_⟩
  · intro r
    simp only [mul_add, Finset.sum_add_distrib, hkernel r, hx r, add_zero]
  · intro heq
    apply hi
    have := congrFun heq i
    linarith

/-- Elimination over exact numbers. What it returns is the one solution; systems whose columns depend
on each other are refused; and a system is refused only for a pivot below the tolerance that has the
largest magnitude in its column among the remaining rows, which have the solutions of the system. -/
theorem solve_exact (m : AugmentedMatrix ℚ) (limits : SizeLimits)
    (h : limits.admits m.size = true) :
    (∀ s, solve m limits = .ok s → ∃ x : Fin m.size → ℚ, s.values = List.ofFn x ∧
      ∀ y, Solves m.rows y ↔ y = x) ∧
    (¬LinearIndependent ℚ (columns m.rows) →
      ∃ column pivot, solve m limits = .error (.singular column pivot)) ∧
    (∀ column pivot, solve m limits = .error (.singular column pivot) →
      |pivot| < 1 / 10 ^ 10 ∧ ∃ i : Fin m.size, column = i ∧
        (∀ x, Solves (worked m.rows i) x ↔ Solves m.rows x) ∧
        (∀ j k : Fin m.size, j < i → j < k → (worked m.rows i).entry k j.castSucc = 0) ∧
        (∃ k, i ≤ k ∧ (worked m.rows i).entry k i.castSucc = pivot) ∧
        ∀ k, i ≤ k → |(worked m.rows i).entry k i.castSucc| ≤ |pivot|) := by
  have hok : ∀ s, solve m limits = .ok s → ∃ x : Fin m.size → ℚ, s.values = List.ofFn x ∧
      ∀ y, Solves m.rows y ↔ y = x := by
    intro s hs
    rcases solve_cases m h with ⟨s', hs', hvalues, hall⟩ | ⟨i, hi, -⟩
    · obtain rfl : s = s' := by simpa [hs] using hs'
      obtain ⟨hstairs, hsolves⟩ := staircase_worked (le_refl m.size) fun k _ => hall k
      have hlength : s.values.length = m.size := by rw [hvalues, length_backSubstitute]
      obtain ⟨x, hx⟩ : ∃ x : Fin m.size → ℚ, s.values = List.ofFn x :=
        ⟨fun j => s.values.get (j.cast hlength.symm), List.ext_getElem (by simp [hlength]) (by simp)⟩
      refine ⟨x, hx, ?_⟩
      intro y
      rw [← hsolves, hstairs.solves_iff, ← backSubstitute_eq_map_iff, ← hvalues, hx,
        ← List.ofFn_eq_map, List.ofFn_inj]
      exact eq_comm
    · simp [hs] at hi
  refine ⟨hok, ?_, ?_⟩
  · intro hdep
    rcases solve_cases m h with ⟨s, hs, -⟩ | ⟨i, hi, -⟩
    · obtain ⟨x, -, hx⟩ := hok s hs
      obtain ⟨y, hy, hne⟩ := Solves.ne_of_dependent hdep ((hx x).mpr rfl)
      exact absurd ((hx y).mp hy) hne
    · exact ⟨_, _, hi⟩
  · intro column pivot hs
    rcases solve_cases m h with ⟨s, hs', -⟩ | ⟨i, hi, hlack, hbefore⟩
    · simp [hs] at hs'
    · obtain ⟨rfl, rfl⟩ : column = i ∧ pivot = Elimination.pivot m.rows i := by simpa [hs] using hi
      obtain ⟨hstairs, hsolves⟩ := staircase_worked i.isLt.le fun k hk => hbefore k hk
      refine ⟨(lacking_eq_true_iff _ _).mp hlack, i, rfl, hsolves, hstairs.zero_below,
        ⟨_, le_pivotRow _ i, (pivot_eq _ i).symm⟩, ?_⟩
      intro k hk
      rw [pivot_eq]
      exact abs_le_pivotRow _ hk

def pair : AugmentedMatrix ℚ :=
  ⟨2, #v[#v[2, 1, 3], #v[1, 1, 2]], Nat.two_pos, fun _ _ => rfl⟩

theorem solve_exact_pair : SizeLimits.standard.admits pair.size = true ∧
    ∀ y, Solves pair.rows y ↔ y = fun _ => 1 := by
  have hadmits : SizeLimits.standard.admits pair.size = true := by decide
  have hvalues : (solve pair .standard).toOption.map Solution.values = some [1, 1] := by
    decide +kernel
  refine ⟨hadmits, ?_⟩
  intro y
  cases hs : solve pair .standard with
  | error e => simp [hs, Except.toOption] at hvalues
  | ok s =>
    obtain ⟨x, hx, hunique⟩ := (solve_exact pair .standard hadmits).1 s hs
    have hones : s.values = List.ofFn fun _ : Fin 2 => (1 : ℚ) := by
      simpa [hs, Except.toOption] using hvalues
    have hxones : x = fun _ => 1 := List.ofFn_injective (hx.symm.trans hones)
    rw [hunique, hxones]

end EquationSolver.Linear
