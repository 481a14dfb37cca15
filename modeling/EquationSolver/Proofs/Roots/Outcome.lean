import Mathlib.Data.List.Basic
import EquationSolver.Proofs.Roots.Method

/-!
# How a run ends

The outcome of a run can be read off the records that it hands to its observer, the observer's
answers and the limits. Convergence counts before a stop, a stop before a fault of the last record,
and a fault before the end of the iterations.
-/

namespace EquationSolver.Roots

variable {κ ρ σ ε α : Type} [Scalar α] [IterationRecord ρ α]

/-- How a run ends that has handed out a last record. -/
structure Concluded (method : Method κ ρ ε α) (limits : Limits α) (answer : Directive)
    (start? : Option κ) (handed : List ρ) (last : ρ) (result : Except ε (Solution ρ α)) : Prop where
  converged_iff :
    HasStatus result .converged ↔
      Scalar.less (IterationRecord.error last) limits.tolerance = true
  stopped_iff : Scalar.less (IterationRecord.error last) limits.tolerance = false →
    (HasStatus result .stoppedByObserver ↔ answer = .stopEarly)
  faulty : Scalar.less (IterationRecord.error last) limits.tolerance = false →
    answer ≠ .stopEarly → ∀ fault, method.fault? last = some fault →
      result = .error (fault handed.toArray)
  exhausted_iff : Scalar.less (IterationRecord.error last) limits.tolerance = false →
    answer ≠ .stopEarly → method.fault? last = none →
      (HasStatus result .maxIters ↔ handed.length = limits.maxIters)
  /-- With iterations left, the next record could not be made. -/
  failed : Scalar.less (IterationRecord.error last) limits.tolerance = false →
    answer ≠ .stopEarly → method.fault? last = none → handed.length ≠ limits.maxIters →
      ∃ start error, start? = some start ∧ result = .error error ∧
        method.next (method.after start handed) handed.toArray = .error error

/-- What the records that a run hands to its observer say of the run. -/
structure Accounted (method : Method κ ρ ε α) (trace? : ε → Option (Array ρ)) (limits : Limits α)
    (observe : Observer σ ρ) (state : σ) (handed : List ρ) (run : Run κ ρ σ ε α) : Prop where
  length_le : handed.length ≤ limits.maxIters
  iter_eq : ∀ before made later, handed = before ++ made :: later →
    IterationRecord.iter made = before.length + 1
  going_on : ∀ before made later, handed = before ++ made :: later → later ≠ [] →
    Scalar.less (IterationRecord.error made) limits.tolerance = false ∧
      observe.answer state before made ≠ .stopEarly ∧ method.fault? made = none
  concluded : ∀ before last, handed = before ++ [last] →
    Concluded method limits (observe.answer state before last) run.start? handed last run.result
  error_of_nil : handed = [] → ∃ error, run.result = .error error
  root_eq : ∀ solution, run.result = .ok solution →
    ∃ before last, handed = before ++ [last] ∧ solution.root = method.estimate last
  trace_eq : ∀ solution, run.result = .ok solution → solution.trace = handed.toArray
  error_trace_eq : ∀ error trace, run.result = .error error → trace? error = some trace →
    trace = handed.toArray

namespace Method

/-- The records of a method count the records before them, and its errors carry just those. -/
structure Counts (method : Method κ ρ ε α) (trace? : ε → Option (Array ρ)) : Prop where
  iter_eq : ∀ {place trace made}, method.next place trace = .ok made →
    IterationRecord.iter made = trace.size + 1
  next_trace : ∀ {place trace error kept}, method.next place trace = .error error →
    trace? error = some kept → kept = trace
  fault_trace : ∀ {made fault trace kept}, method.fault? made = some fault →
    trace? (fault trace) = some kept → kept = trace

variable {method : Method κ ρ ε α} {tolerance : α} {observe : Observer σ ρ} {state : σ} {start : κ}
  {before made : List ρ} {last : ρ} {limits : Limits α} {result : Except ε (Solution ρ α)}
  {trace? : ε → Option (Array ρ)}

namespace Ends

theorem concluded
    (h : Ends method limits.tolerance observe state start limits.maxIters (before ++ [last]) result) :
    Concluded method limits (observe.answer state before last) (some start) (before ++ [last]) last
      result := by
  generalize hrecords : before ++ [last] = made at h ⊢
  cases h with
  | failed earlier left next_eq =>
    obtain ⟨-, -, hundecided⟩ := (hrecords ▸ earlier : Underway ..).of_concat
    obtain ⟨hless, hanswer, hfault⟩ := verdict_eq_none_iff.mp hundecided
    exact {
      converged_iff := by simp [hless]
      stopped_iff := fun _ => by simp [hanswer]
      faulty := fun _ _ fault hsome => by simp [hfault] at hsome
      exhausted_iff := fun _ _ _ => by simp [Nat.ne_of_lt left]
      failed := fun _ _ _ _ => ⟨_, _, rfl, rfl, next_eq⟩ }
  | exhausted earlier none_left =>
    obtain ⟨-, -, hundecided⟩ := (hrecords ▸ earlier : Underway ..).of_concat
    obtain ⟨hless, hanswer, hfault⟩ := verdict_eq_none_iff.mp hundecided
    exact {
      converged_iff := by simp [hless]
      stopped_iff := fun _ => by simp [hanswer]
      faulty := fun _ _ fault hsome => by simp [hfault] at hsome
      exhausted_iff := fun _ _ _ => by simp [none_left]
      failed := fun _ _ _ hne => absurd none_left hne }
  | decided earlier left next_eq decision =>
    obtain ⟨rfl, hlast⟩ := List.append_inj' hrecords rfl
    cases hlast
    obtain ⟨hless, rfl⟩ | ⟨hless, hstop, rfl⟩ | ⟨hless, hstop, fault, hfault, rfl⟩ :=
      verdict_cases decision
    · exact {
        converged_iff := by simp [hless]
        stopped_iff := fun hnot => by simp [hless] at hnot
        faulty := fun hnot => by simp [hless] at hnot
        exhausted_iff := fun hnot => by simp [hless] at hnot
        failed := fun hnot => by simp [hless] at hnot }
    · exact {
        converged_iff := by simp [hless]
        stopped_iff := fun _ => by simp [hstop]
        faulty := fun _ hnot => absurd hstop hnot
        exhausted_iff := fun _ hnot => absurd hstop hnot
        failed := fun _ hnot => absurd hstop hnot }
    · exact {
        converged_iff := by simp [hless]
        stopped_iff := fun _ => by simp [hstop]
        faulty := fun _ _ other hother => by rw [Option.some.inj (hfault.symm.trans hother)]
        exhausted_iff := fun _ _ hnone => by simp [hfault] at hnone
        failed := fun _ _ hnone => by simp [hfault] at hnone }

theorem eq_of_ok {solution : Solution ρ α}
    (h : Ends method limits.tolerance observe state start limits.maxIters made (.ok solution)) :
    (∃ before last, made = before ++ [last] ∧ solution.root = method.estimate last) ∧
      solution.trace = made.toArray := by
  generalize hresult : Except.ok solution = result at h
  cases h with
  | failed earlier left next_eq => cases hresult
  | exhausted earlier none_left =>
    cases hresult
    refine ⟨?_, rfl⟩
    rcases List.eq_nil_or_concat' made with rfl | ⟨before, last, rfl⟩
    · exact absurd none_left (Nat.ne_of_lt limits.maxIters_pos)
    · exact ⟨before, last, rfl, by simp⟩
  | decided earlier left next_eq decision =>
    obtain ⟨-, hok⟩ | ⟨-, -, hok⟩ | ⟨-, -, fault, -, hok⟩ := verdict_cases decision
    · cases hresult.trans hok
      exact ⟨⟨_, _, rfl, rfl⟩, rfl⟩
    · cases hresult.trans hok
      exact ⟨⟨_, _, rfl, rfl⟩, rfl⟩
    · cases hresult.trans hok

private theorem trace_of_error {error : ε} {trace : Array ρ} (hcounts : method.Counts trace?)
    (h : Ends method limits.tolerance observe state start limits.maxIters made (.error error))
    (htrace : trace? error = some trace) : trace = made.toArray := by
  generalize hresult : Except.error error = result at h
  cases h with
  | failed earlier left next_eq =>
    cases hresult
    exact hcounts.next_trace next_eq htrace
  | exhausted earlier none_left => cases hresult
  | decided earlier left next_eq decision =>
    obtain ⟨-, herror⟩ | ⟨-, -, herror⟩ | ⟨-, -, fault, hfault, herror⟩ := verdict_cases decision
    · cases hresult.trans herror
    · cases hresult.trans herror
    · cases hresult.trans herror
      exact hcounts.fault_trace hfault htrace

private theorem error_of_nil
    (h : Ends method limits.tolerance observe state start limits.maxIters [] result) :
    ∃ error, result = .error error := by
  cases result with
  | error error => exact ⟨error, rfl⟩
  | ok solution =>
    obtain ⟨⟨before, last, hnil, -⟩, -⟩ := h.eq_of_ok
    simp at hnil

private theorem accounted (hcounts : method.Counts trace?) {records : Array ρ} {seen : σ}
    (h : Ends method limits.tolerance observe state start limits.maxIters made result) :
    Accounted method trace? limits observe state made ⟨some start, records, seen, result⟩ where
  length_le := h.length_le
  iter_eq before last later hrecords := by
    obtain ⟨-, hnext⟩ := h.next_eq hrecords
    simpa using hcounts.iter_eq hnext
  going_on before last later hrecords hlater := by
    have hunderway : Underway method limits.tolerance observe state start (before ++ [last]) :=
      h.underway_of_prefix ⟨later, by simp [hrecords]⟩ (by simp [hrecords, hlater.symm])
    exact verdict_eq_none_iff.mp hunderway.of_concat.2.2
  concluded before last hrecords := by
    subst hrecords
    exact h.concluded
  error_of_nil hnil := by
    subst hnil
    exact h.error_of_nil
  root_eq solution hok := by
    cases hok
    exact h.eq_of_ok.1
  trace_eq solution hok := by
    cases hok
    exact h.eq_of_ok.2
  error_trace_eq error trace herror htrace := by
    cases herror
    exact h.trace_of_error hcounts htrace

end Ends

private theorem Counts.accounted (hcounts : method.Counts trace?) {start : Except ε κ}
    (hrefused : ∀ error kept, start = .error error → trace? error = some kept → kept = #[])
    (limits : Limits α) (observe : Observer σ ρ) (state : σ) :
    Accounted method trace? limits observe state (handed (method.run start) limits observe state)
      (method.run start limits observe state) := by
  cases start with
  | ok start =>
    obtain ⟨handed, result, hends, hrun⟩ := ends_run method start limits observe state
    rw [hends.handed_eq, hrun]
    exact hends.accounted hcounts
  | error error =>
    exact {
      length_le := Nat.zero_le _
      iter_eq := fun _ _ _ hnil => by simp [handed, run] at hnil
      going_on := fun _ _ _ hnil => by simp [handed, run] at hnil
      concluded := fun _ _ hnil => by simp [handed, run] at hnil
      error_of_nil := fun _ => ⟨error, rfl⟩
      root_eq := fun _ hok => by simp [run] at hok
      trace_eq := fun _ hok => by simp [run] at hok
      error_trace_eq := fun _ kept herror htrace => by
        cases herror
        exact hrefused error kept rfl htrace }

end Method

namespace Bisection

variable {f : Model ε α} {limits : Limits α} {answer : Directive} {start? : Option (Interval α)}
  {handed : List (Record α)} {last : Record α}
  {result : Except (Error ε α) (Solution (Record α) α)}

private theorem method_counts : (method f).Counts Error.trace? where
  iter_eq h := by
    obtain ⟨fc, -, rfl⟩ := method_next_eq_ok_iff.mp h
    rfl
  next_trace h hkept := by
    obtain ⟨cause, -, rfl⟩ := method_next_eq_error_iff.mp h
    cases hkept
  fault_trace {made fault trace kept} h hkept := by
    simp only [method] at h
    split_ifs at h
    cases h
    exact (Option.some.inj hkept).symm

/-- A value that is not finite ends a run only if nothing else does. -/
theorem nonFiniteValue_iff (h : Concluded (method f) limits answer start? handed last result)
    (hless : Scalar.less last.error limits.tolerance = false) (hanswer : answer ≠ .stopEarly) :
    (∃ trace, result = .error (.nonFiniteValue last.c last.fc trace)) ↔
      Scalar.isFinite last.fc = false := by
  cases hfinite : Scalar.isFinite last.fc with
  | false =>
    have hfault : (method f).fault? last = some (.nonFiniteValue last.c last.fc) := by
      simp [method, hfinite]
    simp [h.faulty hless hanswer _ hfault]
  | true =>
    have hfault := method_fault?_eq_none_iff (f := f).mpr hfinite
    simp only [Bool.true_eq_false, iff_false, not_exists]
    intro trace hresult
    by_cases hlength : handed.length = limits.maxIters
    · obtain ⟨solution, hok, -⟩ := (h.exhausted_iff hless hanswer hfault).mpr hlength
      cases hresult.symm.trans hok
    · obtain ⟨start, error, -, herror, hnext⟩ := h.failed hless hanswer hfault hlength
      obtain ⟨cause, -, rfl⟩ := method_next_eq_error_iff.mp hnext
      cases hresult.symm.trans herror

end Bisection

namespace Secant

variable {f : Model ε α}

private theorem method_counts : (method f).Counts Error.trace? where
  iter_eq h := by
    obtain ⟨fx0, fx1, -, -, -, rfl⟩ := next_eq_ok_iff.mp h
    rfl
  next_trace h hkept := next_error_trace h hkept
  fault_trace h hkept := by cases h

private theorem accept_error_trace {x0 x1 : α} {error : Error ε α} {kept : Array (Record α)}
    (h : accept x0 x1 = .error error) (hkept : error.trace? = some kept) : kept = #[] := by
  unfold accept at h
  split_ifs at h
  · cases h
    cases hkept
  · cases h
    cases hkept

end Secant

/-- The outcome of a run is what its records and the stop controls say, for both methods. In
bisection a value that is not finite is reported unless the run has converged or was stopped. -/
theorem outcome_accounted :
    (∀ (f : Model ε α) (x y : α) (limits : Limits α) (observe : Observer σ (Bisection.Record α))
        (state : σ),
      Accounted (Bisection.method f) Bisection.Error.trace? limits observe state
          (handed (Bisection.run f x y) limits observe state)
          (Bisection.run f x y limits observe state) ∧
        ∀ before last, handed (Bisection.run f x y) limits observe state = before ++ [last] →
          Scalar.less last.error limits.tolerance = false →
          observe.answer state before last ≠ .stopEarly →
          ((∃ trace, (Bisection.run f x y limits observe state).result =
              .error (.nonFiniteValue last.c last.fc trace)) ↔
            Scalar.isFinite last.fc = false)) ∧
    ∀ (f : Model ε α) (x0 x1 : α) (limits : Limits α) (observe : Observer σ (Secant.Record α))
        (state : σ),
      Accounted (Secant.method f) Secant.Error.trace? limits observe state
        (handed (Secant.run f x0 x1) limits observe state)
        (Secant.run f x0 x1 limits observe state) := by
  constructor
  · intro f x y limits observe state
    have haccounted := (Bisection.method_counts (f := f)).accounted
      (fun error kept (h : Bisection.enter f x y = .error error) => Bisection.enter_error_trace h)
      limits observe state
    have hhanded : handed (Bisection.run f x y) limits observe state =
        handed ((Bisection.method f).run (Bisection.enter f x y)) limits observe state := by
      simp only [handed, Bisection.run_eq]
    rw [hhanded, Bisection.run_eq]
    refine ⟨haccounted, ?_⟩
    intro before last hlast hless hanswer
    exact Bisection.nonFiniteValue_iff (haccounted.concluded before last hlast) hless hanswer
  · intro f x0 x1 limits observe state
    have hhanded : handed (Secant.run f x0 x1) limits observe state =
        handed ((Secant.method f).run (Secant.accept x0 x1)) limits observe state := by
      simp only [handed, Secant.run_eq]
    rw [hhanded, Secant.run_eq]
    exact Secant.method_counts.accounted (fun error kept => Secant.accept_error_trace) limits observe
      state

def square : Model Empty Float :=
  fun x => .ok (x * x - 2)

def capped (maxIters : Nat) (h : 0 < maxIters) : Limits Float :=
  ⟨maxIters, 0.75, h, by decide, by decide⟩

/-- Two halvings of a wide interval use up two iterations. -/
theorem outcome_accounted_at_cap :
    handed (Bisection.run square 0 4) (capped 2 (by decide)) Observer.silent () =
        [⟨1, 0, 4, 2, 2, 2⟩, ⟨2, 0, 2, 1, -1, 1⟩] ∧
      HasStatus (Bisection.run square 0 4 (capped 2 (by decide)) Observer.silent ()).result
        .maxIters := by
  have hhanded : handed (Bisection.run square 0 4) (capped 2 (by decide)) Observer.silent () =
      [⟨1, 0, 4, 2, 2, 2⟩] ++ [⟨2, 0, 2, 1, -1, 1⟩] := by
    rfl
  have haccounted := (outcome_accounted.1 square 0 4 (capped 2 (by decide)) Observer.silent ()).1
  refine ⟨hhanded, ((haccounted.concluded _ _ hhanded).exhausted_iff ?_ ?_ rfl).mpr ?_⟩
  · decide
  · decide
  · rw [hhanded]
    rfl

end EquationSolver.Roots
