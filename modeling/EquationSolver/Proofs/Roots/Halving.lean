import Mathlib.Order.Bounds.Basic
import Mathlib.Tactic.IntervalCases
import Mathlib.Tactic.Linarith
import Mathlib.Tactic.NormNum
import Mathlib.Tactic.Ring
import EquationSolver.Proofs.Rationals
import EquationSolver.Proofs.Roots.Outcome
import EquationSolver.Proofs.Roots.SignChange

/-!
# The rate of bisection

Over exact numbers an iteration halves its interval and nothing else, so the widths, the errors and
the number of iterations can be told in advance from the bracket, the tolerance and the cap.
-/

namespace EquationSolver.Roots.Bisection

open Rationals

variable {ε σ : Type}

def total (f : ℚ → ℚ) : Model ε ℚ :=
  fun x => .ok (f x)

/-- A zero at an end, or values of opposite signs at the two ends. -/
def ChangesSign (f : ℚ → ℚ) (a b : ℚ) : Prop :=
  f a = 0 ∨ f b = 0 ∨ (f a < 0 ∧ 0 < f b) ∨ (0 < f a ∧ f b < 0)

/-- The record of iteration `i + 1` on the bracket from `a` to `b`. -/
structure Halved (a b : ℚ) (i : Nat) (made : Record ℚ) : Prop where
  iter_eq : made.iter = i + 1
  width_eq : made.b - made.a = (b - a) / 2 ^ i
  error_eq : made.error = (b - a) / 2 ^ (i + 1)
  left_lt : made.a < made.c
  lt_right : made.c < made.b
  middle : made.c - made.a = made.b - made.c

def IsHalf (earlier later : Record ℚ) : Prop :=
  (later.a = earlier.a ∧ later.b = earlier.c) ∨ (later.a = earlier.c ∧ later.b = earlier.b)

/-- What bisection of the bracket from `a` to `b` finds over exact numbers. -/
structure ExactRate (f : ℚ → ℚ) (a b : ℚ) (limits : Limits ℚ) (solution : Solution (Record ℚ) ℚ) :
    Prop where
  first : ∀ made, solution.trace[0]? = some made → made.a = a ∧ made.b = b
  halved : ∀ i made, solution.trace[i]? = some made → Halved a b i made
  half : ∀ i earlier later, solution.trace[i]? = some earlier →
    solution.trace[i + 1]? = some later → IsHalf earlier later
  /-- The records are counted from one, so there is one also for a bracket that is narrower than the
  tolerance from the start. -/
  converged : ∀ k, IsLeast {k | 1 ≤ k ∧ k ≤ limits.maxIters ∧ (b - a) / 2 ^ k < limits.tolerance} k →
    solution.status = .converged ∧ solution.trace.size = k
  exhausted : (∀ k, 1 ≤ k → k ≤ limits.maxIters → limits.tolerance ≤ (b - a) / 2 ^ k) →
    solution.status = .maxIters ∧ solution.trace.size = limits.maxIters
  last : ∃ last, solution.trace.back? = some last ∧ ChangesSign f last.a last.b ∧
    ∀ x, last.a ≤ x → x ≤ last.b → |solution.root - x| ≤ last.error

section Interval

variable {interval : Interval ℚ} {c fc : ℚ}

private theorem midpoint_eq (interval : Interval ℚ) : interval.midpoint = (interval.a + interval.b) / 2 :=
  rfl

private theorem halfWidth_eq (h : interval.a < interval.b) :
    interval.halfWidth = (interval.b - interval.a) / 2 := by
  have hwidth : Scalar.magnitude (interval.b - interval.a) = interval.b - interval.a := by
    rw [magnitude_eq_abs]
    exact abs_of_pos (sub_pos.mpr h)
  rw [Interval.halfWidth, hwidth]
  rfl

private theorem width_keepHalf (interval : Interval ℚ) (fc : ℚ) :
    (interval.keepHalf interval.midpoint fc).b - (interval.keepHalf interval.midpoint fc).a =
      (interval.b - interval.a) / 2 := by
  unfold Interval.keepHalf
  split_ifs
  · rw [midpoint_eq]
    ring
  · rw [midpoint_eq]
    ring

private theorem ends_keepHalf (interval : Interval ℚ) (c fc : ℚ) :
    ((interval.keepHalf c fc).a = interval.a ∧ (interval.keepHalf c fc).b = c) ∨
      ((interval.keepHalf c fc).a = c ∧ (interval.keepHalf c fc).b = interval.b) := by
  unfold Interval.keepHalf
  split_ifs
  · exact .inr ⟨rfl, rfl⟩
  · exact .inl ⟨rfl, rfl⟩

end Interval

section Signs

variable {f : ℚ → ℚ} {a b : ℚ}

private theorem changesSign_iff :
    ChangesSign f a b ↔ (Sign.of (f a) = Sign.of (f b) → Sign.of (f a) = .zero) := by
  unfold ChangesSign
  generalize f a = fa
  generalize f b = fb
  rcases lt_trichotomy fa 0 with ha | rfl | ha <;> rcases lt_trichotomy fb 0 with hb | rfl | hb <;>
    simp [sign_of_neg, sign_of_pos, sign_of_zero, *, ne_of_lt, ne_of_gt, le_of_lt]

private theorem enter_total (hab : a < b) (hsign : ChangesSign f a b) :
    enter (ε := ε) (total f) a b = .ok ⟨a, b, Sign.of (f a)⟩ := by
  have hless : Scalar.less a b = true := less_eq_true_iff.mpr hab
  have hordered : ordered a b = .ok (a, b) := by
    unfold ordered
    rw [if_neg (by exact Bool.false_ne_true), if_pos hless]
  have hends : Interval.ofEnds? a b (f a) (f b) = some ⟨a, b, Sign.of (f a)⟩ :=
    if_neg fun hsame => hsame.2 (changesSign_iff.mp hsign hsame.1)
  simp only [enter, hordered, total, hends]
  rfl

private theorem HasSignChange.changesSign {interval : Interval ℚ} {fa fb : ℚ}
    (h : HasSignChange (ε := ε) (total f) interval fa fb) : ChangesSign f interval.a interval.b := by
  obtain rfl : f interval.a = fa := Except.ok.inj h.left_eq
  obtain rfl : f interval.b = fb := Except.ok.inj h.right_eq
  rw [changesSign_iff, h.sign_left]
  intro hsame
  exact h.sign_right hsame.symm

end Signs

section Course

variable {f : ℚ → ℚ} {tolerance : ℚ} {observe : Observer σ (Record ℚ)} {state : σ}
  {start : Interval ℚ} {a b : ℚ} {i maxIters : Nat} {made last : Record ℚ} {handed : List (Record ℚ)}
  {result : Except (Error ε ℚ) (Solution (Record ℚ) ℚ)}

private theorem width_after
    (h : (method (ε := ε) (total f)).Underway tolerance observe state start handed) :
    ((method (ε := ε) (total f)).after start handed).b -
        ((method (ε := ε) (total f)).after start handed).a =
      (start.b - start.a) / 2 ^ handed.length := by
  induction h with
  | nil => simp
  | concat before next_eq undecided ih =>
    obtain ⟨fc, -, rfl⟩ := method_next_eq_ok_iff.mp next_eq
    rw [Method.after_concat, List.length_append, List.length_singleton, pow_succ, ← div_div, ← ih]
    exact width_keepHalf _ fc

private theorem halved_record {interval : Interval ℚ} {fc : ℚ} (hab : a < b)
    (hwidth : interval.b - interval.a = (b - a) / 2 ^ i) : Halved a b i (record (i + 1) interval fc) := by
  have hlt : interval.a < interval.b := by
    have hpos : 0 < (b - a) / 2 ^ i := div_pos (sub_pos.mpr hab) (by positivity)
    linarith
  have hmid : (record (i + 1) interval fc).c = (interval.a + interval.b) / 2 := midpoint_eq interval
  exact {
    iter_eq := rfl
    width_eq := hwidth
    error_eq := by
      rw [pow_succ, ← div_div, ← hwidth]
      exact halfWidth_eq hlt
    left_lt := by
      rw [hmid]
      exact left_lt_add_div_two.mpr hlt
    lt_right := by
      rw [hmid]
      exact add_div_two_lt_right.mpr hlt
    middle := by
      rw [hmid]
      change _ - interval.a = interval.b - _
      ring }

private theorem record_of_getElem?
    (h : (method (ε := ε) (total f)).Ends tolerance observe state start maxIters handed result)
    (hi : handed[i]? = some made) :
    (method (ε := ε) (total f)).Underway tolerance observe state start (handed.take i) ∧
      ∃ fc, made = record (i + 1) ((method (ε := ε) (total f)).after start (handed.take i)) fc := by
  obtain ⟨hlt, rfl⟩ := List.getElem?_eq_some_iff.mp hi
  have hsplit : handed = handed.take i ++ handed[i] :: handed.drop (i + 1) := by
    rw [← List.drop_eq_getElem_cons hlt, List.take_append_drop]
  obtain ⟨hunderway, hnext⟩ := h.next_eq hsplit
  obtain ⟨fc, -, hmade⟩ := method_next_eq_ok_iff.mp hnext
  refine ⟨hunderway, fc, ?_⟩
  rw [hmade, List.size_toArray, List.length_take, Nat.min_eq_left hlt.le]

private theorem halved_of_getElem? (hab : start.a < start.b)
    (h : (method (ε := ε) (total f)).Ends tolerance observe state start maxIters handed result)
    (hi : handed[i]? = some made) : Halved start.a start.b i made := by
  obtain ⟨hlt, -⟩ := List.getElem?_eq_some_iff.mp hi
  obtain ⟨hunderway, fc, rfl⟩ := record_of_getElem? h hi
  apply halved_record hab
  rw [width_after hunderway, List.length_take, Nat.min_eq_left hlt.le]

private theorem isHalf_of_getElem? {later : Record ℚ}
    (h : (method (ε := ε) (total f)).Ends tolerance observe state start maxIters handed result)
    (hi : handed[i]? = some made) (hlater : handed[i + 1]? = some later) : IsHalf made later := by
  obtain ⟨-, fc, hmade⟩ := record_of_getElem? h hi
  obtain ⟨-, fc', rfl⟩ := record_of_getElem? h hlater
  obtain ⟨hlt, hget⟩ := List.getElem?_eq_some_iff.mp hi
  rw [List.take_succ_eq_append_getElem hlt, hget, Method.after_concat]
  rw [hmade]
  exact ends_keepHalf _ _ fc

private theorem tolerance_le_error
    (h : (method (ε := ε) (total f)).Underway tolerance observe state start handed)
    (hi : handed[i]? = some made) : tolerance ≤ made.error := by
  obtain ⟨hlt, rfl⟩ := List.getElem?_eq_some_iff.mp hi
  have hinitial : handed.take i ++ [handed[i]] <+: handed := by
    rw [← List.take_succ_eq_append_getElem hlt]
    exact List.take_prefix _ _
  obtain ⟨-, -, hundecided⟩ := (h.of_prefix hinitial).of_concat
  exact less_eq_false_iff.mp (Method.verdict_eq_none_iff.mp hundecided).1

private theorem ends_total
    (h : (method (ε := ε) (total f)).Ends tolerance Observer.silent () start maxIters handed result) :
    ∃ before, (method (ε := ε) (total f)).Underway tolerance Observer.silent () start before ∧
      ((∃ last, handed = before ++ [last] ∧ last.error < tolerance ∧
          result = .ok ⟨.converged, last.c, handed.toArray⟩) ∨
        (handed = before ∧ handed.length = maxIters ∧
          ∃ root, (∀ last ∈ handed.getLast?, root = last.c) ∧
            result = .ok ⟨.maxIters, root, handed.toArray⟩)) := by
  cases h with
  | failed before left next_eq =>
    obtain ⟨cause, hcall, -⟩ := method_next_eq_error_iff.mp next_eq
    cases hcall
  | exhausted before none_left =>
    refine ⟨_, before, .inr ⟨rfl, none_left, _, ?_, rfl⟩⟩
    intro last hlast
    rw [Option.mem_def.mp hlast]
    rfl
  | decided before left next_eq decision =>
    obtain ⟨hless, rfl⟩ | ⟨-, hstop, -⟩ | ⟨-, -, fault, hfault, -⟩ := Method.verdict_cases decision
    · exact ⟨_, before, .inl ⟨_, rfl, less_eq_true_iff.mp hless, rfl⟩⟩
    · cases hstop
    · cases hfault

private theorem Halved.abs_sub_le {x : ℚ} (h : Halved a b i made) (hleft : made.a ≤ x)
    (hright : x ≤ made.b) :
    |made.c - x| ≤ made.error := by
  have hmiddle := h.middle
  have herror : made.error = (made.b - made.a) / 2 := by
    rw [h.error_eq, h.width_eq, pow_succ, div_div]
  rw [abs_le]
  constructor <;> linarith

private theorem changesSign_of_getElem? (hstart : ChangesSign f start.a start.b)
    (hkept : start.signAtLeft = Sign.of (f start.a))
    (h : (method (ε := ε) (total f)).Ends tolerance observe state start maxIters handed result)
    (hi : handed[i]? = some made) : ChangesSign f made.a made.b := by
  have hentered : HasSignChange (ε := ε) (total f) start (f start.a) (f start.b) := by
    refine ⟨rfl, rfl, rfl, rfl, hkept.symm, ?_⟩
    rw [hkept]
    intro hsame
    exact changesSign_iff.mp hstart hsame.symm
  obtain ⟨hunderway, fc, rfl⟩ := record_of_getElem? h hi
  obtain ⟨-, fa, fb, hchange⟩ := hasSignChange_after hentered hunderway
  exact hchange.changesSign

private theorem tolerance_le_of_underway {before : List (Record ℚ)} (hab : start.a < start.b)
    (h : (method (ε := ε) (total f)).Ends tolerance observe state start maxIters handed result)
    (hunderway : (method (ε := ε) (total f)).Underway tolerance observe state start before)
    (hinitial : before <+: handed) {k : Nat} (hk : 1 ≤ k) (hle : k ≤ before.length) :
    tolerance ≤ (start.b - start.a) / 2 ^ k := by
  obtain ⟨i, rfl⟩ := Nat.exists_eq_add_of_le' hk
  have hi : before[i]? = some before[i] := List.getElem?_eq_getElem hle
  have hi' : handed[i]? = some before[i] := by
    obtain ⟨rest, rfl⟩ := hinitial
    rw [List.getElem?_append_left hle, hi]
  rw [← (halved_of_getElem? hab h hi').error_eq]
  exact tolerance_le_error hunderway hi

private theorem exactRate_of_ends {limits : Limits ℚ} {status : Status} {root : ℚ} (hab : start.a < start.b)
    (hstart : ChangesSign f start.a start.b) (hkept : start.signAtLeft = Sign.of (f start.a))
    (h : (method (ε := ε) (total f)).Ends tolerance observe state start maxIters handed result)
    (hlast : handed.getLast? = some last) (hroot : root = last.c)
    (hconverged : ∀ k, IsLeast {k | 1 ≤ k ∧ k ≤ limits.maxIters ∧
      (start.b - start.a) / 2 ^ k < limits.tolerance} k → status = .converged ∧ handed.length = k)
    (hexhausted : (∀ k, 1 ≤ k → k ≤ limits.maxIters →
      limits.tolerance ≤ (start.b - start.a) / 2 ^ k) →
        status = .maxIters ∧ handed.length = limits.maxIters) :
    ExactRate f start.a start.b limits ⟨status, root, handed.toArray⟩ where
  first made hmade := by
    obtain ⟨-, fc, rfl⟩ := record_of_getElem? h (by simpa using hmade)
    exact ⟨rfl, rfl⟩
  halved i made hmade := halved_of_getElem? hab h (by simpa using hmade)
  half i earlier later hearlier hlater :=
    isHalf_of_getElem? h (by simpa using hearlier) (by simpa using hlater)
  converged := hconverged
  exhausted := hexhausted
  last := by
    have hi : handed[handed.length - 1]? = some last := by
      rw [← List.getLast?_eq_getElem?, hlast]
    refine ⟨last, by simpa using hlast, changesSign_of_getElem? hstart hkept h hi, ?_⟩
    intro x hleft hright
    rw [hroot]
    exact (halved_of_getElem? hab h hi).abs_sub_le hleft hright

/-- The number of records is the first with an error below the tolerance, or the cap. -/
theorem exists_exactRate {limits : Limits ℚ} (hab : start.a < start.b)
    (hstart : ChangesSign f start.a start.b) (hkept : start.signAtLeft = Sign.of (f start.a))
    (h : (method (ε := ε) (total f)).Ends limits.tolerance Observer.silent () start limits.maxIters handed
      result) :
    ∃ solution, result = .ok solution ∧ ExactRate f start.a start.b limits solution := by
  obtain ⟨before, hunderway, ⟨last, rfl, hless, rfl⟩ | ⟨rfl, hlength, root, hroot, rfl⟩⟩ := ends_total h
  · have herror : last.error = (start.b - start.a) / 2 ^ (before.length + 1) :=
      (halved_of_getElem? hab h (by simp)).error_eq
    rw [herror] at hless
    have hle : before.length + 1 ≤ limits.maxIters := by simpa using h.length_le
    refine ⟨_, rfl, exactRate_of_ends hab hstart hkept h (by simp) rfl ?_ ?_⟩
    · intro k hk
      refine ⟨rfl, ?_⟩
      rw [List.length_append, List.length_singleton]
      apply le_antisymm
      · by_contra hlt
        have hmiss := tolerance_le_of_underway hab h hunderway (List.prefix_append _ _) hk.1.1 (by omega)
        exact absurd hk.1.2.2 (not_lt.mpr hmiss)
      · exact hk.2 ⟨by omega, hle, hless⟩
    · intro hmiss
      exact absurd hless (not_lt.mpr (hmiss _ (by omega) hle))
  · obtain ⟨last, hlast⟩ : ∃ last, handed.getLast? = some last := by
      have hpos := limits.maxIters_pos
      have hne : handed ≠ [] := by
        rintro rfl
        simp at hlength
        omega
      exact ⟨_, List.getLast?_eq_some_getLast hne⟩
    refine ⟨_, rfl, exactRate_of_ends hab hstart hkept h hlast (hroot last hlast) ?_ ?_⟩
    · intro k hk
      have hmiss := tolerance_le_of_underway hab h hunderway List.prefix_rfl hk.1.1
        (by rw [hlength]; exact hk.1.2.1)
      exact absurd hk.1.2.2 (not_lt.mpr hmiss)
    · intro hmiss
      exact ⟨rfl, hlength⟩

end Course

/-- Over exact numbers bisection halves the bracket until half the width is below the tolerance, or the
iterations are used up. -/
theorem halves_to_tolerance (f : ℚ → ℚ) (a b : ℚ) (hab : a < b) (hsign : ChangesSign f a b)
    (limits : Limits ℚ) :
    ∃ solution, solve (ε := ε) (total f) a b limits = .ok solution ∧
      ExactRate f a b limits solution := by
  obtain ⟨handed, result, hends, hrun⟩ := Method.ends_run (method (ε := ε) (total f))
    ⟨a, b, Sign.of (f a)⟩ limits Observer.silent ()
  obtain ⟨solution, hresult, hrate⟩ := exists_exactRate hab hsign rfl hends
  refine ⟨solution, ?_, hrate⟩
  rw [solve, run_eq, enter_total hab hsign, hrun, hresult]

def parabola (x : ℚ) : ℚ :=
  x ^ 2 - 2

def quarterErrors : Limits ℚ :=
  ⟨9, 1 / 4, Nat.succ_pos 8, rfl, less_eq_false_iff.mpr (by positivity)⟩

/-- The third error is just the tolerance, so a fourth record is made. -/
theorem halves_to_tolerance_parabola :
    ((0 : ℚ) < 2 ∧ ChangesSign parabola 0 2) ∧
      ∃ solution, solve (ε := Empty) (total parabola) 0 2 quarterErrors = .ok solution ∧
        solution.status = .converged ∧ solution.trace.size = 4 := by
  have hlt : (0 : ℚ) < 2 := by norm_num
  have hsign : ChangesSign parabola 0 2 := by
    refine .inr (.inr (.inl ⟨?_, ?_⟩)) <;> norm_num [parabola]
  obtain ⟨solution, hsolve, hrate⟩ := halves_to_tolerance parabola 0 2 hlt hsign quarterErrors
  have hfourth : IsLeast {k | 1 ≤ k ∧ k ≤ quarterErrors.maxIters ∧
      ((2 : ℚ) - 0) / 2 ^ k < quarterErrors.tolerance} 4 := by
    constructor
    · refine ⟨by decide, by decide, ?_⟩
      norm_num [quarterErrors]
    · rintro k ⟨hk, -, hless⟩
      by_contra hlt
      interval_cases k <;> norm_num [quarterErrors] at hless
  exact ⟨⟨hlt, hsign⟩, solution, hsolve, hrate.converged 4 hfourth⟩

end EquationSolver.Roots.Bisection
