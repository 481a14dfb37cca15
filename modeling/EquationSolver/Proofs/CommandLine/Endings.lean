import EquationSolver.Main

/-!
# How tasks end

A root finder returns an estimate with a status, another task succeeds, the input is invalid, or the
solver fails on valid input. Every task comes to one of these ends. They are told through what the
libraries return, and not through what the program prints; the lemmas behind them say what the
outcome of each is.
-/

namespace EquationSolver.CommandLine

open Formula Roots

def Task.formula? : Task → Option String
  | .eval formula _ | .bisection formula _ _ _ | .secant formula _ _ _ => some formula
  | .solve _ | .template _ => none

def Task.limits? : Task → Option GivenLimits
  | .bisection _ _ _ given | .secant _ _ _ given => some given
  | .eval .. | .solve _ | .template _ => none

/-- What a root finder needs before it runs: the formula was read, and the limits are limits. -/
structure Prepared (formula : String) (given : GivenLimits) (expression : Expression)
    (limits : Limits Float) : Prop where
  parsed : Expression.parse formula = .ok expression
  checked : Limits.make given.maxIters given.tolerance = .ok limits

/-- The task is to find a root, and the root finder ran and returned an estimate with a status. -/
inductive Finds : Task → Status → Prop
  | bisection {formula given expression limits a b solution}
      (prepared : Prepared formula given expression limits)
      (found : Bisection.solve (ε := Empty) expression.call a b limits = .ok solution) :
      Finds (.bisection formula a b given) solution.status
  | secant {formula given expression limits x0 x1 solution}
      (prepared : Prepared formula given expression limits)
      (found : Secant.solve (ε := Empty) expression.call x0 x1 limits = .ok solution) :
      Finds (.secant formula x0 x1 given) solution.status

/-- The formula has a finite value, the root finder stopped before its limit, the system is solved, or
the size of the template is one that is supported. -/
inductive Succeeds : Task → Prop
  | eval {formula expression x value} (parsed : Expression.parse formula = .ok expression)
      (finite : expression.tryEval x = .ok value) : Succeeds (.eval formula x)
  | root {task status} (found : Finds task status) (early : status ≠ .maxIters) : Succeeds task
  | solve {rows matrix solution} (valid : Linear.AugmentedMatrix.ofRows rows = .ok matrix)
      (solved : Linear.solve matrix .standard = .ok solution) : Succeeds (.solve rows)
  | template {size} (supported : Linear.SizeLimits.standard.admits size = true) :
      Succeeds (.template size)

/-- Something that was given is not what the task needs. -/
inductive InvalidInput : Task → Prop
  | formula {task formula error} (asked : task.formula? = some formula)
      (unread : Expression.parse formula = .error error) : InvalidInput task
  | limits {task given error} (asked : task.limits? = some given)
      (unchecked : Limits.make (α := Float) given.maxIters given.tolerance = .error error) :
      InvalidInput task
  | matrix {rows error} (invalid : Linear.AugmentedMatrix.ofRows rows = .error error) :
      InvalidInput (.solve rows)
  | size {size} (unsupported : Linear.SizeLimits.standard.admits size = false) :
      InvalidInput (.template size)

/-- What was given is valid, and the solver fails on it. -/
inductive SolverFails : Task → Prop
  | eval {formula expression x error} (parsed : Expression.parse formula = .ok expression)
      (infinite : expression.tryEval x = .error error) : SolverFails (.eval formula x)
  | bisection {formula given expression limits a b error}
      (prepared : Prepared formula given expression limits)
      (failed : Bisection.solve (ε := Empty) expression.call a b limits = .error error) :
      SolverFails (.bisection formula a b given)
  | secant {formula given expression limits x0 x1 error}
      (prepared : Prepared formula given expression limits)
      (failed : Secant.solve (ε := Empty) expression.call x0 x1 limits = .error error) :
      SolverFails (.secant formula x0 x1 given)
  | solve {rows matrix error} (valid : Linear.AugmentedMatrix.ofRows rows = .ok matrix)
      (failed : Linear.solve matrix .standard = .error error) : SolverFails (.solve rows)

private theorem Finds.ends {task : Task} {status : Status} (found : Finds task status) :
    Finds task .maxIters ∨ Succeeds task := by
  by_cases h : status = .maxIters
  · exact .inl (h ▸ found)
  · exact .inr (.root found h)

private theorem prepared_or_invalid {task : Task} {formula : String} {given : GivenLimits}
    (hformula : task.formula? = some formula) (hlimits : task.limits? = some given) :
    (∃ expression limits, Prepared formula given expression limits) ∨ InvalidInput task := by
  cases parsed : Expression.parse formula with
  | error => exact .inr (.formula hformula parsed)
  | ok expression =>
    cases checked : Limits.make (α := Float) given.maxIters given.tolerance with
    | error => exact .inr (.limits hlimits checked)
    | ok limits => exact .inl ⟨expression, limits, parsed, checked⟩

/-- Every task comes to one of these ends. -/
theorem ends (task : Task) :
    (Finds task .maxIters ∨ Succeeds task) ∨ InvalidInput task ∨ SolverFails task := by
  cases task with
  | eval formula x =>
    cases parsed : Expression.parse formula with
    | error => exact .inr (.inl (.formula rfl parsed))
    | ok expression =>
      cases finite : expression.tryEval x with
      | error => exact .inr (.inr (.eval parsed finite))
      | ok value => exact .inl (.inr (.eval parsed finite))
  | bisection formula a b given =>
    obtain ⟨expression, limits, prepared⟩ | invalid :=
      prepared_or_invalid (rfl : (Task.bisection formula a b given).formula? = _) rfl
    · cases found : Bisection.solve (ε := Empty) expression.call a b limits with
      | error => exact .inr (.inr (.bisection prepared found))
      | ok solution => exact .inl (Finds.bisection prepared found).ends
    · exact .inr (.inl invalid)
  | secant formula x0 x1 given =>
    obtain ⟨expression, limits, prepared⟩ | invalid :=
      prepared_or_invalid (rfl : (Task.secant formula x0 x1 given).formula? = _) rfl
    · cases found : Secant.solve (ε := Empty) expression.call x0 x1 limits with
      | error => exact .inr (.inr (.secant prepared found))
      | ok solution => exact .inl (Finds.secant prepared found).ends
    · exact .inr (.inl invalid)
  | solve rows =>
    cases valid : Linear.AugmentedMatrix.ofRows rows with
    | error => exact .inr (.inl (.matrix valid))
    | ok matrix =>
      cases solved : Linear.solve matrix .standard with
      | error => exact .inr (.inr (.solve valid solved))
      | ok solution => exact .inl (.inr (.solve valid solved))
  | template size =>
    cases supported : Linear.SizeLimits.standard.admits size with
    | false => exact .inr (.inl (.size supported))
    | true => exact .inl (.inr (.template supported))

section Outcomes

variable {task : Task} {json : Bool}

theorem Prepared.outcome_bisection {formula : String} {a b : Float} {given : GivenLimits}
    {expression : Expression} {limits : Limits Float}
    (prepared : Prepared formula given expression limits) (json : Bool) :
    ∃ log, (Task.bisection formula a b given).outcome json =
      runOutcome json Report.bisectionRecord log "bisection failed"
        (Bisection.Error.causes Empty.elim) Bisection.Error.trace?
        (Bisection.solve expression.call a b limits) := by
  simp only [Task.outcome, bisectionOutcome, withFormula, withLimits, prepared.parsed,
    prepared.checked]
  exact ⟨_, rfl⟩

theorem Prepared.outcome_secant {formula : String} {x0 x1 : Float} {given : GivenLimits}
    {expression : Expression} {limits : Limits Float}
    (prepared : Prepared formula given expression limits) (json : Bool) :
    ∃ log, (Task.secant formula x0 x1 given).outcome json =
      runOutcome json Report.secantRecord log "secant method failed"
        (Secant.Error.causes Empty.elim) Secant.Error.trace?
        (Secant.solve expression.call x0 x1 limits) := by
  simp only [Task.outcome, secantOutcome, withFormula, withLimits, prepared.parsed,
    prepared.checked]
  exact ⟨_, rfl⟩

theorem zeros_of_admits {limits : Linear.SizeLimits} {size : Nat} (supported : limits.admits size = true) :
    ∃ matrix, Linear.AugmentedMatrix.zeros (α := Float) size = .ok matrix := by
  simp only [Linear.SizeLimits.admits, Bool.and_eq_true, decide_eq_true_eq] at supported
  have hpos : 0 < size := Nat.lt_of_lt_of_le limits.least_pos supported.1
  simp only [Linear.AugmentedMatrix.zeros, Linear.AugmentedMatrix.ofEntries, dif_pos hpos]
  exact ⟨_, rfl⟩

def EndsSilently (outcome : Outcome) : Prop :=
  ∃ log failure, outcome = ⟨log, "", .error failure⟩

private theorem withFormula_endsSilently {formula : String} {error : ParseError}
    {next : Expression → List Journal.Entry → Outcome}
    (unread : Expression.parse formula = .error error) : EndsSilently (withFormula formula next) := by
  simp only [withFormula, unread]
  exact ⟨_, _, rfl⟩

private theorem withLimits_endsSilently {formula : String} {given : GivenLimits} {error : LimitsError}
    {next : Expression → List Journal.Entry → Limits Float → Outcome}
    (unchecked : Limits.make (α := Float) given.maxIters given.tolerance = .error error) :
    EndsSilently (withFormula formula fun expression log =>
      withLimits given log (next expression log)) := by
  cases parsed : Expression.parse formula with
  | error => exact withFormula_endsSilently parsed
  | ok expression =>
    simp only [withFormula, parsed, withLimits, unchecked]
    exact ⟨_, _, rfl⟩

theorem InvalidInput.endsSilently (invalid : InvalidInput task) :
    EndsSilently (task.outcome json) := by
  cases invalid with
  | formula asked unread =>
    cases task <;> cases asked <;> simp only [Task.outcome] <;> exact withFormula_endsSilently unread
  | limits asked unchecked =>
    cases task <;> cases asked <;> simp only [Task.outcome] <;> exact withLimits_endsSilently unchecked
  | matrix invalid =>
    simp only [Task.outcome, solveOutcome, invalid]
    exact ⟨_, _, rfl⟩
  | size unsupported =>
    simp only [Task.outcome, templateOutcome, unsupported, Bool.false_eq_true, if_false]
    exact ⟨_, _, rfl⟩

theorem evalOutcome_endsSilently {formula : String} {expression : Expression} {x : Float}
    {error : NonFiniteValue} (parsed : Expression.parse formula = .ok expression)
    (infinite : expression.tryEval x = .error error) :
    EndsSilently ((Task.eval formula x).outcome json) := by
  simp only [Task.outcome, evalOutcome, withFormula, parsed, infinite]
  exact ⟨_, _, rfl⟩

theorem solveOutcome_endsSilently {rows : List (List Float)}
    {matrix : Linear.AugmentedMatrix Float} {error : Linear.EliminationError Float}
    (valid : Linear.AugmentedMatrix.ofRows rows = .ok matrix)
    (failed : Linear.solve matrix .standard = .error error) :
    EndsSilently ((Task.solve rows).outcome json) := by
  simp only [Linear.solve] at failed
  simp only [Task.outcome, solveOutcome, valid, failed]
  exact ⟨_, _, rfl⟩

end Outcomes

end EquationSolver.CommandLine
