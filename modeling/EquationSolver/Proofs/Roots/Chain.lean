import Mathlib.Data.List.Chain
import EquationSolver.Proofs.Roots.Controls

/-!
# The chain of secants

Each record of the secant method starts from the last point and the estimate of the one before, and
takes over the value there. A run that fails behind its last record fails on the points that the next
record would have had; as the value at the first of them has been taken before, only the estimate can
be the place of the failure.
-/

namespace EquationSolver.Roots.Secant

variable {σ ε α : Type} [Scalar α]

/-- Whether a record holds the values of a model at its points, and the zero of the secant through
them. -/
structure Consistent (f : Model ε α) (made : Record α) : Prop where
  fx0_eq : f made.x0 = .ok made.fx0
  fx1_eq : f made.x1 = .ok made.fx1
  fx0_finite : Scalar.isFinite made.fx0 = true
  fx1_finite : Scalar.isFinite made.fx1 = true
  not_level : Scalar.less (Scalar.magnitude (made.fx1 - made.fx0)) degenerateSlope = false
  x2_eq : made.x2 = made.x1 - made.fx1 * (made.x1 - made.x0) / (made.fx1 - made.fx0)
  error_eq : made.error = Scalar.magnitude (made.x2 - made.x1)

/-- Whether a record goes on where another one has ended. -/
structure Follows (earlier later : Record α) : Prop where
  iter_eq : later.iter = earlier.iter + 1
  x0_eq : later.x0 = earlier.x1
  x1_eq : later.x1 = earlier.x2
  fx0_eq : later.fx0 = earlier.fx1

/-- The failures behind a last record. -/
inductive FailsBehind (f : Model ε α) (last : Record α) (trace : Array (Record α)) :
    Error ε α → Prop
  | degenerate {fx1 : α} (fx1_eq : f last.x2 = .ok fx1) (fx1_finite : Scalar.isFinite fx1 = true)
      (level : Scalar.less (Scalar.magnitude (fx1 - last.fx1)) degenerateSlope = true) :
      FailsBehind f last trace
        (.degenerate (trace.size + 1) last.x1 last.x2 last.fx1 fx1 trace)
  | nonFiniteValue {value : α} (value_eq : f last.x2 = .ok value)
      (infinite : Scalar.isFinite value = false) :
      FailsBehind f last trace (.nonFiniteValue last.x2 value trace)
  | model {cause : ε} (failed : f last.x2 = .error cause) : FailsBehind f last trace (.model cause)

/-- Whether the records of a run are one chain from its starting points on, which its solution carries
and its error goes on with. -/
structure Chained (f : Model ε α) (x0 x1 : α) (handed : List (Record α))
    (result : Except (Error ε α) (Solution (Record α) α)) : Prop where
  first : ∀ made later, handed = made :: later → made.iter = 1 ∧ made.x0 = x0 ∧ made.x1 = x1
  linked : handed.IsChain Follows
  consistent : ∀ made ∈ handed, Consistent f made
  returned : ∀ solution, result = .ok solution → solution.trace = handed.toArray
  failed : ∀ before last error, handed = before ++ [last] → result = .error error →
    FailsBehind f last handed.toArray error

/-! ## One iteration -/

section Iteration

variable {f : Model ε α} {x x0 x1 value : α} {trace : Array (Record α)} {last made : Record α}
  {error : Error ε α}

private theorem valueAt_eq_ok_iff :
    valueAt f x trace = .ok value ↔ f x = .ok value ∧ Scalar.isFinite value = true := by
  cases hcall : f x with
  | error cause => simp [valueAt, hcall]
  | ok called =>
    by_cases hfinite : Scalar.isFinite called = true
    · simp only [valueAt, hcall, hfinite, if_true, Except.ok.injEq]
      constructor
      · rintro rfl
        exact ⟨rfl, hfinite⟩
      · exact And.left
    · simp only [valueAt, hcall, hfinite, if_false, reduceCtorEq, Except.ok.injEq, false_iff, not_and]
      rintro rfl
      exact hfinite

theorem consistent_of_next (h : next f x0 x1 trace = .ok made) :
    Consistent f made ∧ made.iter = trace.size + 1 ∧ made.x0 = x0 ∧ made.x1 = x1 := by
  obtain ⟨fx0, fx1, hfx0, hfx1, hslope, rfl⟩ := next_eq_ok_iff.mp h
  obtain ⟨hcall0, hfinite0⟩ := valueAt_eq_ok_iff.mp hfx0
  obtain ⟨hcall1, hfinite1⟩ := valueAt_eq_ok_iff.mp hfx1
  exact ⟨⟨hcall0, hcall1, hfinite0, hfinite1, hslope, rfl, rfl⟩, rfl, rfl, rfl⟩

private theorem Consistent.valueAt_eq (h : Consistent f last) :
    valueAt f last.x1 trace = .ok last.fx1 :=
  valueAt_eq_ok_iff.mpr ⟨h.fx1_eq, h.fx1_finite⟩

private theorem Consistent.follows (h : Consistent f last) (hiter : last.iter = trace.size)
    (hnext : next f last.x1 last.x2 trace = .ok made) : Follows last made := by
  obtain ⟨hmade, hmadeIter, hx0, hx1⟩ := consistent_of_next hnext
  have hvalue : f last.x1 = .ok made.fx0 := by
    rw [← hx0]
    exact hmade.fx0_eq
  rw [h.fx1_eq] at hvalue
  exact ⟨by rw [hmadeIter, hiter], hx0, hx1, (Except.ok.inj hvalue).symm⟩

private theorem Consistent.failsBehind (h : Consistent f last)
    (hnext : next f last.x1 last.x2 trace = .error error) : FailsBehind f last trace error := by
  simp only [next, h.valueAt_eq, Except.bind] at hnext
  cases hcall : f last.x2 with
  | error cause =>
    simp only [valueAt, hcall, Except.error.injEq] at hnext
    exact hnext ▸ .model hcall
  | ok value =>
    cases hfinite : Scalar.isFinite value with
    | false =>
      simp only [valueAt, hcall, hfinite, Bool.false_eq_true, if_false, Except.error.injEq] at hnext
      exact hnext ▸ .nonFiniteValue hcall hfinite
    | true =>
      simp only [valueAt_eq_ok_iff.mpr ⟨hcall, hfinite⟩] at hnext
      split at hnext
      · next hlevel =>
        exact Except.error.inj hnext ▸ .degenerate hcall hfinite hlevel
      · cases hnext

end Iteration

/-! ## Whole runs -/

section Runs

variable {f : Model ε α} {start : α × α} {before later records : List (Record α)}
  {last made : Record α}

theorem consistent_of_makes (h : (method f).Makes start records) :
    ∀ made ∈ records, Consistent f made := by
  intro made hmade
  obtain ⟨before, later, rfl⟩ := List.mem_iff_append.mp hmade
  exact (consistent_of_next (h before made later rfl)).1

private theorem after_of_makes (h : (method f).Makes start (before ++ [last])) :
    (method f).after start (before ++ [last]) = (last.x1, last.x2) := by
  obtain ⟨-, -, -, hx1⟩ := consistent_of_next (h before last [] rfl)
  rw [Method.after_concat, hx1]
  rfl

private theorem next_of_makes (h : (method f).Makes start (before ++ [last] ++ made :: later)) :
    next f last.x1 last.x2 (before ++ [last]).toArray = .ok made := by
  have hnext := h (before ++ [last]) made later rfl
  rw [after_of_makes h.of_append] at hnext
  exact hnext

theorem follows_of_makes (h : (method f).Makes start (before ++ [last] ++ made :: later)) :
    Follows last made := by
  obtain ⟨hlast, hiter, -⟩ := consistent_of_next (h.of_append before last [] rfl)
  exact hlast.follows (by simp [hiter]) (next_of_makes h)

private theorem isChain_of_makes (h : (method f).Makes start records) : records.IsChain Follows := by
  induction records using List.reverseRecOn with
  | nil => exact .nil
  | append_singleton before made ih =>
    rw [List.isChain_append]
    refine ⟨ih h.of_append, .singleton made, ?_⟩
    intro last hlast next hnext
    obtain ⟨earlier, rfl⟩ := List.getLast?_eq_some_iff.mp hlast
    obtain rfl : made = next := by simpa using hnext
    exact follows_of_makes h

/-- A run of the secant method fails only where no next record can be made. -/
theorem next_of_ends {tolerance : α} {observe : Observer σ (Record α)} {state : σ} {maxIters : Nat}
    {error : Error ε α}
    (h : Method.Ends (method f) tolerance observe state start maxIters records (.error error)) :
    next f ((method f).after start records).1 ((method f).after start records).2 records.toArray =
      .error error := by
  generalize hresult : Except.error error = result at h
  cases h with
  | failed earlier left next_eq =>
    cases hresult
    exact next_eq
  | exhausted earlier none_left => cases hresult
  | decided earlier left next_eq decision =>
    obtain ⟨-, hok⟩ | ⟨-, -, hok⟩ | ⟨-, -, fault, hfault, -⟩ := Method.verdict_cases decision
    · cases hresult.trans hok
    · cases hresult.trans hok
    · cases hfault

private theorem chained_of_ends {limits : Limits α} {observe : Observer σ (Record α)} {state : σ}
    {x0 x1 : α} {result : Except (Error ε α) (Solution (Record α) α)}
    (h : Method.Ends (method f) limits.tolerance observe state (x0, x1) limits.maxIters records result) :
    Chained f x0 x1 records result where
  first made later hrecords := by
    obtain ⟨-, hiter, hpoints⟩ := consistent_of_next (h.makes [] made later hrecords)
    exact ⟨hiter, hpoints⟩
  linked := isChain_of_makes h.makes
  consistent := consistent_of_makes h.makes
  returned solution hok := by
    subst hok
    exact h.eq_of_ok.2
  failed before last error hrecords herror := by
    subst hrecords herror
    have hlast := consistent_of_makes h.makes last (by simp)
    have hnext := next_of_ends h
    rw [after_of_makes h.makes] at hnext
    exact hlast.failsBehind hnext

end Runs

private theorem chained_nil (f : Model ε α) (x0 x1 : α) (error : Error ε α) :
    Chained f x0 x1 [] (.error error) where
  first _ _ h := by cases h
  linked := .nil
  consistent made h := by cases h
  returned solution h := by cases h
  failed before _ _ h := by simp at h

/-- Whatever the model, the points, the limits and the observer, the records of a run of the secant
method are one chain; its solution carries them all, and its error goes on with them. -/
theorem records_chained (f : Model ε α) (x0 x1 : α) (limits : Limits α)
    (observe : Observer σ (Record α)) (state : σ) :
    Chained f x0 x1 (handed (run f x0 x1) limits observe state)
      (run f x0 x1 limits observe state).result := by
  simp only [handed, run_eq]
  cases hstart : (accept x0 x1 : Except (Error ε α) (α × α)) with
  | error error => exact chained_nil f x0 x1 error
  | ok start =>
    obtain rfl : (x0, x1) = start := by
      unfold accept at hstart
      split_ifs at hstart
      cases hstart
      rfl
    obtain ⟨records, result, hends, hrun⟩ :=
      Method.ends_run (method f) (x0, x1) limits observe state
    have hhanded := hends.handed_eq
    simp only [handed] at hhanded
    rw [hhanded, hrun]
    exact chained_of_ends hends

end EquationSolver.Roots.Secant
