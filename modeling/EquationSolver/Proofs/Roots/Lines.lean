import Mathlib.Tactic.FieldSimp
import Mathlib.Tactic.Linarith
import Mathlib.Tactic.NormNum
import Mathlib.Tactic.Ring
import EquationSolver.Proofs.Rationals
import EquationSolver.Proofs.Roots.Method

/-!
# Secants of straight lines

The secant of a straight line is the line itself, so over exact numbers the first estimate is the root.
A second iteration starts from a point on the root and finds the root again, unless the value at the
other point is too small for a secant: then the run fails although it has found the root.
-/

namespace EquationSolver.Roots.Secant

open Rationals

variable {ε : Type}

def line (m q : ℚ) : Model ε ℚ :=
  fun x => .ok (m * x + q)

private theorem degenerateSlope_pos : (0 : ℚ) < degenerateSlope := by
  have hslope : (degenerateSlope : ℚ) = 1e-10 := rfl
  rw [hslope]
  norm_num

section Iteration

variable {m q x0 x1 : ℚ} {trace : Array (Record ℚ)}

private theorem valueAt_line (m q x : ℚ) (trace : Array (Record ℚ)) :
    valueAt (ε := ε) (line m q) x trace = .ok (m * x + q) := rfl

private theorem slope_line (m q x0 x1 : ℚ) : m * x1 + q - (m * x0 + q) = m * (x1 - x0) := by ring

private theorem sub_ne_zero_of_steep (h : degenerateSlope ≤ |m * (x1 - x0)|) : x1 - x0 ≠ 0 := by
  intro hzero
  rw [hzero, mul_zero, abs_zero] at h
  exact absurd degenerateSlope_pos (not_lt.mpr h)

private theorem zeroOfSecant_line (hm : m ≠ 0) (hpoints : x1 - x0 ≠ 0) :
    zeroOfSecant x0 x1 (m * x0 + q) (m * x1 + q) = -q / m := by
  change x1 - (m * x1 + q) * (x1 - x0) / (m * x1 + q - (m * x0 + q)) = -q / m
  rw [slope_line]
  field_simp
  ring

private theorem zeroOfSecant_of_zero (x0 x1 fx0 : ℚ) : zeroOfSecant x0 x1 fx0 0 = x1 := by
  change x1 - 0 * (x1 - x0) / (0 - fx0) = x1
  rw [zero_mul, zero_div, sub_zero]

private theorem next_line (hsteep : degenerateSlope ≤ |m * (x1 - x0)|) :
    next (ε := ε) (line m q) x0 x1 trace =
      .ok (record (trace.size + 1) x0 x1 (m * x0 + q) (m * x1 + q)) := by
  apply next_eq_ok_iff.mpr
  refine ⟨_, _, valueAt_line m q x0 trace, valueAt_line m q x1 trace, ?_, rfl⟩
  rw [less_eq_false_iff, magnitude_eq_abs]
  change degenerateSlope ≤ |m * x1 + q - (m * x0 + q)|
  rwa [slope_line]

private theorem next_line_of_level (hlevel : |m * (x1 - x0)| < degenerateSlope) :
    next (ε := ε) (line m q) x0 x1 trace =
      .error (.degenerate (trace.size + 1) x0 x1 (m * x0 + q) (m * x1 + q) trace) := by
  have hless : Scalar.less (Scalar.magnitude (m * x1 + q - (m * x0 + q))) degenerateSlope = true := by
    rw [less_eq_true_iff, magnitude_eq_abs, slope_line]
    exact hlevel
  simp only [next, valueAt_line, Except.bind]
  exact if_pos hless

end Iteration

/-! ## Runs -/

/-- The record of the first iteration on a straight line. Its estimate is the root. -/
def firstOnLine (m q x0 x1 : ℚ) : Record ℚ :=
  ⟨1, x0, x1, m * x0 + q, m * x1 + q, -q / m, |(m * x1 + q) / m|⟩

/-- The record of the second iteration, which starts from the root and stays there. -/
def secondOnLine (m q x1 : ℚ) : Record ℚ :=
  ⟨2, x1, -q / m, m * x1 + q, 0, -q / m, 0⟩

/-- What the secant method does on a straight line from two points on. -/
structure SolvesLine (m q x0 x1 : ℚ) (limits : Limits ℚ) : Prop where
  first : ∃ made, (run (ε := ε) (line m q) x0 x1 limits Observer.silent ()).records[0]? = some made ∧
    made.x2 = -q / m
  once : |(m * x1 + q) / m| < limits.tolerance →
    solve (ε := ε) (line m q) x0 x1 limits =
      .ok ⟨.converged, -q / m, #[firstOnLine m q x0 x1]⟩
  /-- The only iteration that is allowed leaves an error that is no less than the tolerance. -/
  exhausted : limits.tolerance ≤ |(m * x1 + q) / m| → limits.maxIters = 1 →
    solve (ε := ε) (line m q) x0 x1 limits =
      .ok ⟨.maxIters, -q / m, #[firstOnLine m q x0 x1]⟩
  twice : limits.tolerance ≤ |(m * x1 + q) / m| → 2 ≤ limits.maxIters →
    degenerateSlope ≤ |m * x1 + q| →
      solve (ε := ε) (line m q) x0 x1 limits =
        .ok ⟨.converged, -q / m, #[firstOnLine m q x0 x1, secondOnLine m q x1]⟩
  degenerate : limits.tolerance ≤ |(m * x1 + q) / m| → 2 ≤ limits.maxIters →
    |m * x1 + q| < degenerateSlope →
      solve (ε := ε) (line m q) x0 x1 limits =
        .error (.degenerate 2 x1 (-q / m) (m * x1 + q) 0 #[firstOnLine m q x0 x1])

section Runs

variable {m q x0 x1 tolerance : ℚ} {maxIters : Nat}

private theorem value_at_root (hm : m ≠ 0) (q : ℚ) : m * (-q / m) + q = 0 := by
  field_simp
  ring

private theorem drop_to_root (hm : m ≠ 0) (q x1 : ℚ) : |m * (-q / m - x1)| = |m * x1 + q| := by
  have hdrop : m * (-q / m - x1) = -(m * x1 + q) := by
    field_simp
    ring
  rw [hdrop, abs_neg]

private theorem record_first (hm : m ≠ 0) (hpoints : x1 - x0 ≠ 0) :
    record 1 x0 x1 (m * x0 + q) (m * x1 + q) = firstOnLine m q x0 x1 := by
  have herror : -q / m - x1 = -((m * x1 + q) / m) := by
    field_simp
    ring
  have hmagnitude : Scalar.magnitude (-q / m - x1) = |(m * x1 + q) / m| := by
    rw [magnitude_eq_abs, herror, abs_neg]
  rw [record, zeroOfSecant_line hm hpoints]
  exact congrArg (Record.mk 1 x0 x1 (m * x0 + q) (m * x1 + q) (-q / m)) hmagnitude

private theorem record_second (m q x1 : ℚ) :
    record 2 x1 (-q / m) (m * x1 + q) 0 = secondOnLine m q x1 := by
  have hmagnitude : Scalar.magnitude (-q / m - -q / m) = 0 := by
    rw [magnitude_eq_abs, sub_self, abs_zero]
  rw [record, zeroOfSecant_of_zero]
  exact congrArg (Record.mk 2 x1 (-q / m) (m * x1 + q) 0 (-q / m)) hmagnitude

variable (hm : m ≠ 0) (hsteep : degenerateSlope ≤ |m * (x1 - x0)|)

include hm hsteep

private theorem first_next :
    (method (ε := ε) (line m q)).next (x0, x1) #[] = .ok (firstOnLine m q x0 x1) := by
  rw [← record_first hm (sub_ne_zero_of_steep hsteep)]
  exact next_line hsteep

private theorem underway_first (hmiss : tolerance ≤ |(m * x1 + q) / m|) :
    (method (ε := ε) (line m q)).Underway tolerance Observer.silent () (x0, x1)
      [firstOnLine m q x0 x1] := by
  apply Method.Underway.concat .nil (first_next hm hsteep)
  apply Method.verdict_eq_none_iff.mpr
  exact ⟨less_eq_false_iff.mpr hmiss, Directive.noConfusion, rfl⟩

private theorem ends_once (hless : |(m * x1 + q) / m| < tolerance) (hpos : 0 < maxIters) :
    (method (ε := ε) (line m q)).Ends tolerance Observer.silent () (x0, x1) maxIters
      [firstOnLine m q x0 x1] (.ok ⟨.converged, -q / m, #[firstOnLine m q x0 x1]⟩) := by
  apply Method.Ends.decided .nil hpos (first_next hm hsteep)
  exact if_pos (less_eq_true_iff.mpr hless)

private theorem ends_exhausted (hmiss : tolerance ≤ |(m * x1 + q) / m|) (hone : maxIters = 1) :
    (method (ε := ε) (line m q)).Ends tolerance Observer.silent () (x0, x1) maxIters
      [firstOnLine m q x0 x1] (.ok ⟨.maxIters, -q / m, #[firstOnLine m q x0 x1]⟩) :=
  .exhausted (underway_first hm hsteep hmiss) hone.symm

/-- The second secant ends on the root, so its error is zero and below every tolerance. -/
theorem ends_twice (hpos : 0 < tolerance) (hmiss : tolerance ≤ |(m * x1 + q) / m|)
    (htwo : 2 ≤ maxIters) (hvalue : degenerateSlope ≤ |m * x1 + q|) :
    (method (ε := ε) (line m q)).Ends tolerance Observer.silent () (x0, x1) maxIters
      [firstOnLine m q x0 x1, secondOnLine m q x1]
      (.ok ⟨.converged, -q / m, #[firstOnLine m q x0 x1, secondOnLine m q x1]⟩) := by
  have hsecond : next (ε := ε) (line m q) x1 (-q / m) #[firstOnLine m q x0 x1] =
      .ok (secondOnLine m q x1) := by
    rw [← drop_to_root hm] at hvalue
    rw [next_line hvalue, value_at_root hm, ← record_second]
    rfl
  apply Method.Ends.decided (underway_first hm hsteep hmiss) htwo hsecond
  exact if_pos (less_eq_true_iff.mpr hpos)

private theorem ends_degenerate (hmiss : tolerance ≤ |(m * x1 + q) / m|) (htwo : 2 ≤ maxIters)
    (hvalue : |m * x1 + q| < degenerateSlope) :
    (method (ε := ε) (line m q)).Ends tolerance Observer.silent () (x0, x1) maxIters
      [firstOnLine m q x0 x1]
      (.error (.degenerate 2 x1 (-q / m) (m * x1 + q) 0 #[firstOnLine m q x0 x1])) := by
  apply Method.Ends.failed (underway_first hm hsteep hmiss) htwo
  rw [← drop_to_root hm] at hvalue
  have hlevel : next (ε := ε) (line m q) x1 (-q / m) #[firstOnLine m q x0 x1] =
      .error (.degenerate 2 x1 (-q / m) (m * x1 + q) (m * (-q / m) + q) #[firstOnLine m q x0 x1]) :=
    next_line_of_level hvalue
  rwa [value_at_root hm] at hlevel

end Runs

private theorem run_of_ends {f : Model ε ℚ} {x0 x1 : ℚ} {limits : Limits ℚ} {handed : List (Record ℚ)}
    {result : Except (Error ε ℚ) (Solution (Record ℚ) ℚ)}
    (h : (method f).Ends limits.tolerance Observer.silent () (x0, x1) limits.maxIters handed result) :
    run f x0 x1 limits Observer.silent () = ⟨some (x0, x1), handed.toArray, (), result⟩ := by
  rw [run_eq]
  exact h.iterate_eq

private theorem solve_of_ends {f : Model ε ℚ} {x0 x1 : ℚ} {limits : Limits ℚ} {handed : List (Record ℚ)}
    {result : Except (Error ε ℚ) (Solution (Record ℚ) ℚ)}
    (h : (method f).Ends limits.tolerance Observer.silent () (x0, x1) limits.maxIters handed result) :
    solve f x0 x1 limits = result :=
  congrArg Run.result (run_of_ends h)

private theorem first_of_ends {m q x0 x1 tolerance : ℚ} (hm : m ≠ 0)
    (hsteep : degenerateSlope ≤ |m * (x1 - x0)|) {maxIters : Nat} (hpos : 0 < maxIters)
    {handed : List (Record ℚ)} {result : Except (Error ε ℚ) (Solution (Record ℚ) ℚ)}
    (h : (method (line m q)).Ends tolerance Observer.silent () (x0, x1) maxIters handed result) :
    handed[0]? = some (firstOnLine m q x0 x1) := by
  have hfirst := first_next (ε := ε) (q := q) hm hsteep
  cases handed with
  | nil =>
    generalize hnil : ([] : List (Record ℚ)) = made at h
    cases h with
    | failed before left next_eq =>
      subst hnil
      cases hfirst.symm.trans next_eq
    | decided before left next_eq decision => simp at hnil
    | exhausted before none_left =>
      subst hnil
      exact absurd none_left hpos.ne
  | cons made later =>
    have hhanded : made :: later = [] ++ made :: later := rfl
    have hmade := (h.next_eq hhanded).2
    rw [List.getElem?_cons_zero, ← Except.ok.inj (hfirst.symm.trans hmade)]

/-- Over exact numbers the secant method has the root of a straight line in its first record. It
converges at once if that root is near enough to the last point, and in the second iteration otherwise,
unless the value at the last point is too small for a secant to the root. -/
theorem solve_line (m q x0 x1 : ℚ) (hm : m ≠ 0) (hsteep : degenerateSlope ≤ |m * (x1 - x0)|)
    (limits : Limits ℚ) (hpos : 0 < limits.tolerance) : SolvesLine (ε := ε) m q x0 x1 limits where
  first := by
    obtain ⟨handed, result, hends, -⟩ :=
      Method.ends_run (method (ε := ε) (line m q)) (x0, x1) limits Observer.silent ()
    refine ⟨firstOnLine m q x0 x1, ?_, rfl⟩
    rw [run_of_ends hends, List.getElem?_toArray]
    exact first_of_ends hm hsteep limits.maxIters_pos hends
  once hless := solve_of_ends (ends_once hm hsteep hless limits.maxIters_pos)
  exhausted hmiss hone := solve_of_ends (ends_exhausted hm hsteep hmiss hone)
  twice hmiss htwo hvalue := solve_of_ends (ends_twice hm hsteep hpos hmiss htwo hvalue)
  degenerate hmiss htwo hvalue := solve_of_ends (ends_degenerate hm hsteep hmiss htwo hvalue)

def fineErrors : Limits ℚ :=
  ⟨5, 1 / 1000, Nat.succ_pos 4, rfl, less_eq_false_iff.mpr (by positivity)⟩

/-- On a line that is almost level the root 1 / 5 is found from 3 and 3 / 20, and the run fails on it: the
value at 3 / 20 is half of what a second secant needs. -/
theorem solve_line_flat :
    ((1e-9 : ℚ) ≠ 0 ∧ degenerateSlope ≤ |(1e-9 : ℚ) * (3 / 20 - 3)| ∧ 0 < fineErrors.tolerance) ∧
      solve (ε := Empty) (line 1e-9 (-2e-10)) 3 (3 / 20) fineErrors =
        .error (.degenerate 2 (3 / 20) (1 / 5) (-5e-11) 0 #[firstOnLine 1e-9 (-2e-10) 3 (3 / 20)]) ∧
      (firstOnLine 1e-9 (-2e-10) 3 (3 / 20)).x2 = 1 / 5 := by
  have hslope : (degenerateSlope : ℚ) = 1e-10 := rfl
  have hm : (1e-9 : ℚ) ≠ 0 := by norm_num
  have hsteep : degenerateSlope ≤ |(1e-9 : ℚ) * (3 / 20 - 3)| := by
    rw [hslope]
    norm_num [abs_of_neg]
  have hpos : 0 < fineErrors.tolerance := by norm_num [fineErrors]
  have hmiss : fineErrors.tolerance ≤ |((1e-9 : ℚ) * (3 / 20) + -2e-10) / 1e-9| := by
    norm_num [fineErrors, abs_of_neg]
  have hlevel : |(1e-9 : ℚ) * (3 / 20) + -2e-10| < degenerateSlope := by
    rw [hslope]
    norm_num [abs_of_neg]
  have hroot : -(-2e-10 : ℚ) / 1e-9 = 1 / 5 := by norm_num
  have hvalue : (1e-9 : ℚ) * (3 / 20) + -2e-10 = -5e-11 := by norm_num
  have hsolve := (solve_line (ε := Empty) 1e-9 (-2e-10) 3 (3 / 20) hm hsteep fineErrors hpos).degenerate
    hmiss (by decide) hlevel
  rw [hroot, hvalue] at hsolve
  exact ⟨⟨hm, hsteep, hpos⟩, hsolve, hroot⟩

end EquationSolver.Roots.Secant
