import EquationSolver.Proofs.Floats.Range
import EquationSolver.Proofs.Roots.Chain
import EquationSolver.Proofs.Roots.Escape

/-!
# Estimates out of range

The zero of a secant may lie beyond the greatest float. Such an estimate is only found in the next
iteration, by the value of the model at it: a run that stops before returns it as the root, and a model
with a finite value there leads the run on. No later estimate is finite again.
-/

namespace EquationSolver.Roots.Secant

open Floats

variable {σ ε : Type}

/-- Whether an iteration on finite numbers comes to a finite estimate without leaving the range of
floats on its way. The difference of the two values may leave it: what is divided by it is then zero. -/
structure InRange (made : Record Float) : Prop where
  x0_finite : made.x0.isFinite = true
  x1_finite : made.x1.isFinite = true
  difference_finite : (made.x1 - made.x0).isFinite = true
  product_finite : (made.fx1 * (made.x1 - made.x0)).isFinite = true
  quotient_finite : (made.fx1 * (made.x1 - made.x0) / (made.fx1 - made.fx0)).isFinite = true
  estimate_finite : made.x2.isFinite = true

/-- How far the estimates of a run can be relied on. -/
structure Surfaced (f : Model ε Float) (handed : List (Record Float))
    (result : Except (Error ε Float) (Solution (Record Float) Float)) : Prop where
  root_finite_iff : ∀ solution, result = .ok solution →
    (solution.root.isFinite = true ↔ ∀ made ∈ handed, InRange made)
  converged : ∀ solution, result = .ok solution → solution.status = .converged →
    solution.root.isFinite = true
  /-- A run goes on only where the model is finite at the estimate. -/
  going_on : ∀ before made later, handed = before ++ made :: later → later ≠ [] →
    ∃ value, f made.x2 = .ok value ∧ value.isFinite = true
  /-- Behind an estimate that is not finite, no other one is. -/
  spoiled : ∀ before made later, handed = before ++ made :: later → made.x2.isFinite = false →
    ∀ next ∈ later, next.x2.isFinite = false

/-! ## One iteration -/

section Iteration

variable {f : Model ε Float} {made : Record Float}

private theorem Consistent.inRange (h : Consistent f made) (hestimate : made.x2.isFinite = true) :
    InRange made := by
  have hdefined := hestimate
  rw [h.x2_eq] at hdefined
  obtain ⟨hx1, hquotient⟩ := isFinite_of_sub hdefined
  have hproduct := isFinite_of_div hquotient
  have hdifference := (isFinite_of_mul hproduct).2
  exact ⟨(isFinite_of_sub hdifference).2, hx1, hdifference, hproduct, hquotient, hestimate⟩

private theorem Consistent.finite_of_less {tolerance : Float} (h : Consistent f made)
    (hless : Scalar.less made.error tolerance = true) :
    made.x2.isFinite = true ∧ made.error.isFinite = true := by
  rw [h.error_eq] at hless ⊢
  cases hstep : (made.x2 - made.x1).isFinite with
  | true => exact ⟨(isFinite_of_sub hstep).1, (isFinite_abs hstep).1⟩
  | false => exact absurd (of_decide_eq_true hless) (not_abs_lt hstep tolerance)

private theorem Consistent.not_less_zero (h : Consistent f made) : Scalar.less made.error 0 = false := by
  rw [h.error_eq]
  exact decide_eq_false (not_abs_lt_zero _)

end Iteration

/-! ## Whole runs -/

section Runs

variable {f : Model ε Float} {start : Float × Float} {before later records : List (Record Float)}
  {made : Record Float}

/-- An estimate is finite only if all before it are. -/
theorem inRange_of_makes (h : (method f).Makes start (before ++ [made]))
    (hmade : made.x2.isFinite = true) : ∀ record ∈ before ++ [made], InRange record := by
  have hrange : InRange made := (consistent_of_makes h made (by simp)).inRange hmade
  induction before using List.reverseRecOn generalizing made with
  | nil => simpa using hrange
  | append_singleton before last ih =>
    have hlast : last.x2.isFinite = true := by
      rw [← (follows_of_makes h).x1_eq]
      exact hrange.x1_finite
    have hbefore := h.of_append
    have hlastRange := (consistent_of_makes hbefore last (by simp)).inRange hlast
    intro record hmem
    rcases List.mem_append.mp hmem with hmem | hmem
    · exact ih hbefore hlast hlastRange record hmem
    · exact List.mem_singleton.mp hmem ▸ hrange

private theorem underway_of_makes (h : (method f).Makes start records) :
    Method.Underway (method f) 0 Observer.silent () start records := by
  induction records using List.reverseRecOn with
  | nil => exact .nil
  | append_singleton before last ih =>
    have hnext := h before last [] rfl
    refine .concat (ih h.of_append) hnext (Method.verdict_eq_none_iff.mpr ⟨?_, ?_, rfl⟩)
    · exact (consistent_of_makes h last (by simp)).not_less_zero
    · simp [Observer.answer_silent]

private theorem accept_eq_ok {x0 x1 : Float} (hx0 : x0.isFinite = true) (hx1 : x1.isFinite = true) :
    (accept x0 x1 : Except (Error ε Float) (Float × Float)) = .ok (x0, x1) := by
  have hx0' : Scalar.isFinite x0 = true := hx0
  have hx1' : Scalar.isFinite x1 = true := hx1
  simp [accept, hx0', hx1']

/-- Every estimate that can be made is the root of a run that ends with it. -/
theorem run_of_makes {x0 x1 : Float} (hx0 : x0.isFinite = true) (hx1 : x1.isFinite = true)
    (h : (method f).Makes (x0, x1) (before ++ [made])) :
    (run f x0 x1 (Bisection.exactly before.length) Observer.silent ()).result =
      .ok ⟨.maxIters, made.x2, (before ++ [made]).toArray⟩ := by
  have hlength : (before ++ [made]).length = before.length + 1 := List.length_append
  have hends := Method.Ends.exhausted (underway_of_makes h) hlength
  rw [run_eq, accept_eq_ok hx0 hx1]
  refine (congrArg Run.result hends.iterate_eq).trans ?_
  simp [method]

private theorem surfaced_of_ends {limits : Limits Float} {observe : Observer σ (Record Float)} {state : σ}
    {result : Except (Error ε Float) (Solution (Record Float) Float)}
    (h : Method.Ends (method f) limits.tolerance observe state start limits.maxIters records result) :
    Surfaced f records result where
  root_finite_iff solution hok := by
    subst hok
    obtain ⟨⟨before, last, rfl, hroot⟩, -⟩ := h.eq_of_ok
    have hroot : solution.root = last.x2 := hroot
    rw [hroot]
    constructor
    · intro hfinite
      exact inRange_of_makes h.makes hfinite
    · intro hrange
      exact (hrange last (by simp)).estimate_finite
  converged solution hok hstatus := by
    subst hok
    obtain ⟨⟨before, last, rfl, hroot⟩, -⟩ := h.eq_of_ok
    have hless := h.concluded.converged_iff.mp (by simpa using hstatus)
    rw [hroot]
    exact ((consistent_of_makes h.makes last (by simp)).finite_of_less hless).1
  going_on before made later hrecords hlater := by
    obtain ⟨next, later, rfl⟩ := List.exists_cons_of_ne_nil hlater
    have hnext := consistent_of_makes h.makes next (by simp [hrecords])
    have hmakes := h.makes
    rw [hrecords, ← List.singleton_append, ← List.append_assoc] at hmakes
    rw [← (follows_of_makes hmakes).x1_eq]
    exact ⟨next.fx1, hnext.fx1_eq, hnext.fx1_finite⟩
  spoiled before made later hrecords hmade next hnext := by
    obtain ⟨between, rest, rfl⟩ := List.mem_iff_append.mp hnext
    have hmakes : (method f).Makes start (before ++ made :: between ++ [next] ++ rest) := by
      simpa [hrecords] using h.makes
    apply Bool.eq_false_iff.mpr
    intro hfinite
    have hrange := inRange_of_makes hmakes.of_append hfinite
    rw [(hrange made (by simp)).estimate_finite] at hmade
    cases hmade

end Runs

private theorem surfaced_nil (f : Model ε Float) (error : Error ε Float) :
    Surfaced f [] (.error error) where
  root_finite_iff _ h := by cases h
  converged _ h := by cases h
  going_on before _ _ h := by simp at h
  spoiled before _ _ h := by simp at h

private theorem surfaced_run (f : Model ε Float) (x0 x1 : Float) (limits : Limits Float)
    (observe : Observer σ (Record Float)) (state : σ) :
    Surfaced f (handed (run f x0 x1) limits observe state) (run f x0 x1 limits observe state).result := by
  simp only [handed, run_eq]
  cases accept x0 x1 with
  | error error => exact surfaced_nil f error
  | ok start =>
    obtain ⟨records, result, hends, hrun⟩ := Method.ends_run (method f) start limits observe state
    have hhanded := hends.handed_eq
    simp only [handed] at hhanded
    rw [hhanded, hrun]
    exact surfaced_of_ends hends

/-- Whatever the limits and the observer, the root is a number exactly if the method makes no estimate
out of range. In every run the root is a number if the run has converged. -/
theorem root_finite_iff_inRange (f : Model ε Float) {x0 x1 : Float} (hx0 : x0.isFinite = true)
    (hx1 : x1.isFinite = true) :
    ((∀ {σ : Type} (limits : Limits Float) (observe : Observer σ (Record Float)) (state : σ) solution,
        (run f x0 x1 limits observe state).result = .ok solution → solution.root.isFinite = true) ↔
      ∀ records, (method f).Makes (x0, x1) records → ∀ made ∈ records, InRange made) ∧
    ∀ {σ : Type} (limits : Limits Float) (observe : Observer σ (Record Float)) (state : σ),
      Surfaced f (handed (run f x0 x1) limits observe state)
        (run f x0 x1 limits observe state).result := by
  refine ⟨⟨?_, ?_⟩, fun limits observe state => surfaced_run f x0 x1 limits observe state⟩
  · intro h records hmakes made hmade
    obtain ⟨before, later, rfl⟩ := List.mem_iff_append.mp hmade
    have hnext := hmakes before made later rfl
    rw [← List.singleton_append, ← List.append_assoc] at hmakes
    have hroot := h (Bisection.exactly before.length) Observer.silent () _
      (run_of_makes hx0 hx1 hmakes.of_append)
    exact (consistent_of_next hnext).1.inRange hroot
  · intro h σ limits observe state solution hok
    rw [run_eq, accept_eq_ok hx0 hx1] at hok
    obtain ⟨records, result, hends, hrun⟩ :=
      Method.ends_run (method f) (x0, x1) limits observe state
    rw [hrun] at hok
    subst hok
    exact ((surfaced_of_ends hends).root_finite_iff solution rfl).mpr (h records hends.makes)

/-- The run towards the square root of two converges, so all its estimates are in range. -/
theorem root_finite_square :
    ((1 : Float).isFinite = true ∧ (2 : Float).isFinite = true) ∧
    ∃ solution, (run square 1 2 .standard Observer.silent ()).result = .ok solution ∧
      solution.root.isFinite = true ∧
      ∀ made ∈ handed (run square 1 2) .standard Observer.silent (), InRange made := by
  have hpoints : (1 : Float).isFinite = true ∧ (2 : Float).isFinite = true := by decide
  have hconverged : ∃ solution, (run square 1 2 .standard Observer.silent ()).result = .ok solution ∧
      solution.isConverged = true := exists_ok_of_check (by decide +kernel)
  obtain ⟨solution, hok, hstatus⟩ := hconverged
  have hsurfaced := (root_finite_iff_inRange square hpoints.1 hpoints.2).2 .standard
    Observer.silent ()
  have hfinite := hsurfaced.converged solution hok (of_decide_eq_true hstatus)
  exact ⟨hpoints, solution, hok, hfinite, (hsurfaced.root_finite_iff solution hok).mp hfinite⟩

def identity : Model Empty Float := .ok

def impatient : Observer Unit (Record Float) :=
  fun _ _ => ((), .stopEarly)

/-- The first secant of the identity between two large numbers has its computed zero at infinity. That
is the root of a run that is exhausted, and of one that is stopped. -/
theorem root_infinite :
    ((1e200 : Float).isFinite = true ∧ (2e200 : Float).isFinite = true) ∧
    (∃ solution, (run identity 1e200 2e200 (Bisection.exactly 0) Observer.silent ()).result =
        .ok solution ∧ solution.root.isFinite = false) ∧
    ∃ solution, (run identity 1e200 2e200 .standard impatient ()).result = .ok solution ∧
      solution.root.isFinite = false := by
  have hexhausted : ∃ solution, (run identity 1e200 2e200 (Bisection.exactly 0) Observer.silent
      ()).result = .ok solution ∧ (!solution.root.isFinite) = true :=
    exists_ok_of_check (by decide +kernel)
  have hstopped : ∃ solution, (run identity 1e200 2e200 .standard impatient ()).result =
      .ok solution ∧ (!solution.root.isFinite) = true := exists_ok_of_check (by decide +kernel)
  simp only [Bool.not_eq_true'] at hexhausted hstopped
  exact ⟨by decide +kernel, hexhausted, hstopped⟩

/-! ## Runs that converge -/

structure AllFinite (made : Record Float) : Prop where
  x0_finite : made.x0.isFinite = true
  x1_finite : made.x1.isFinite = true
  fx0_finite : made.fx0.isFinite = true
  fx1_finite : made.fx1.isFinite = true
  x2_finite : made.x2.isFinite = true
  error_finite : made.error.isFinite = true

section Convergence

variable {f : Model ε Float} {start : Float × Float} {before later : List (Record Float)}
  {last made : Record Float}

private theorem isFinite_error_of_makes (h : (method f).Makes start (before ++ [last] ++ made :: later))
    (hmade : InRange made) : last.error.isFinite = true := by
  have hfollows := follows_of_makes h
  have hdifference := hmade.difference_finite
  rw [hfollows.x1_eq, hfollows.x0_eq] at hdifference
  rw [(consistent_of_makes h last (by simp)).error_eq]
  exact (isFinite_abs hdifference).1

private theorem allFinite_of_makes (h : (method f).Makes start (before ++ [last]))
    (hestimate : last.x2.isFinite = true) (hlast : last.error.isFinite = true) :
    ∀ made ∈ before ++ [last], AllFinite made := by
  have hrange := inRange_of_makes h hestimate
  intro made hmade
  have hconsistent := consistent_of_makes h made hmade
  have herror : made.error.isFinite = true := by
    obtain ⟨earlier, later, hrecords⟩ := List.mem_iff_append.mp hmade
    cases later with
    | nil =>
      obtain ⟨-, hsame⟩ := List.append_inj' hrecords rfl
      cases hsame
      exact hlast
    | cons next later =>
      have hnext : InRange next := hrange next (by simp [hrecords])
      rw [hrecords, ← List.singleton_append, ← List.append_assoc] at h
      exact isFinite_error_of_makes h hnext
  have hmadeRange := hrange made hmade
  exact {
    x0_finite := hmadeRange.x0_finite
    x1_finite := hmadeRange.x1_finite
    fx0_finite := hconsistent.fx0_finite
    fx1_finite := hconsistent.fx1_finite
    x2_finite := hmadeRange.estimate_finite
    error_finite := herror }

end Convergence

/-- A run that has converged has never left the finite numbers, even if its model is finite where its
argument is not. -/
theorem finite_of_converged (f : Model ε Float) (x0 x1 : Float) (limits : Limits Float)
    (observe : Observer σ (Record Float)) (state : σ) {solution : Solution (Record Float) Float}
    (hok : (run f x0 x1 limits observe state).result = .ok solution)
    (hconverged : solution.status = .converged) :
    solution.root.isFinite = true ∧ ∀ made ∈ solution.trace, AllFinite made := by
  rw [run_eq] at hok
  cases hstart : (accept x0 x1 : Except (Error ε Float) (Float × Float)) with
  | error error =>
    rw [hstart] at hok
    cases hok
  | ok start =>
    obtain ⟨records, result, hends, hrun⟩ := Method.ends_run (method f) start limits observe state
    rw [hstart, hrun] at hok
    subst hok
    obtain ⟨⟨before, last, rfl, hroot⟩, htrace⟩ := hends.eq_of_ok
    have hless := hends.concluded.converged_iff.mp (by simpa using hconverged)
    obtain ⟨hestimate, hlast⟩ :=
      (consistent_of_makes hends.makes last (by simp)).finite_of_less hless
    rw [hroot, htrace]
    refine ⟨hestimate, fun made hmade => ?_⟩
    exact allFinite_of_makes hends.makes hestimate hlast made (List.mem_toArray.mp hmade)

/-- A parabola near zero that is one everywhere else, at infinities and where there is no number too. -/
def sheltered : Model Empty Float :=
  fun x => .ok (if x.abs < 100 then x * x - 2 else 1)

theorem finite_of_converged_sheltered : sheltered (1 / 0) = .ok 1 ∧ sheltered (0 / 0) = .ok 1 ∧
    ∃ solution, (run sheltered 1 2 .standard Observer.silent ()).result = .ok solution ∧
      solution.status = .converged ∧ solution.root.isFinite = true ∧
      ∀ made ∈ solution.trace, AllFinite made := by
  have hconverged : ∃ solution, (run sheltered 1 2 .standard Observer.silent ()).result =
      .ok solution ∧ solution.isConverged = true := exists_ok_of_check (by decide +kernel)
  obtain ⟨solution, hok, hstatus⟩ := hconverged
  have hstatus : solution.status = .converged := of_decide_eq_true hstatus
  refine ⟨by decide +kernel, by decide +kernel, solution, hok, hstatus, ?_⟩
  exact finite_of_converged sheltered 1 2 .standard Observer.silent () hok hstatus

end EquationSolver.Roots.Secant
