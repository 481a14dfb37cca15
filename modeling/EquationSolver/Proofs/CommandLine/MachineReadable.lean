import EquationSolver.Proofs.CommandLine.Endings
import EquationSolver.Proofs.Report.JsonText

/-!
# Machine-readable output

Asked for documents, the program prints one JSON document and a line break, or nothing. A root finder
that fails after its first iteration is the one exception: it prints the table of its iterations, which
is no JSON. Every other outcome of every task keeps to the promise.
-/

namespace EquationSolver.CommandLine

open Formula Report Roots

/-- Nothing, or exactly one JSON document with a line break behind it. -/
def MachineReadable (output : String) : Prop :=
  output = "" ∨ ∃ document, JsonGrammar.IsDocument document ∧ output.toList = document ++ ['\n']

/-- A root finder runs, and fails with an error that keeps some iterations. -/
inductive StopsMidway : Task → Prop
  | bisection {formula given expression limits a b error trace}
      (prepared : Prepared formula given expression limits)
      (failed : Bisection.solve (ε := Empty) expression.call a b limits = .error error)
      (kept : error.trace? = some trace) (some : trace ≠ #[]) :
      StopsMidway (.bisection formula a b given)
  | secant {formula given expression limits x0 x1 error trace}
      (prepared : Prepared formula given expression limits)
      (failed : Secant.solve (ε := Empty) expression.call x0 x1 limits = .error error)
      (kept : error.trace? = some trace) (some : trace ≠ #[]) :
      StopsMidway (.secant formula x0 x1 given)

section Outputs

private theorem machineReadable_line {text : String} (h : JsonGrammar.IsValue text.toList) :
    MachineReadable (text ++ "\n") :=
  .inr ⟨text.toList, h.padded, by simp⟩

private theorem machineReadable_of_endsSilently {outcome : Outcome} (h : EndsSilently outcome) :
    MachineReadable outcome.output := by
  obtain ⟨log, failure, rfl⟩ := h
  exact .inl rfl

private theorem not_machineReadable_of_head {output : String} (h : output.toList.head? = some 'I') :
    ¬MachineReadable output := by
  rintro (rfl | ⟨document, hdocument, hline⟩)
  · cases h
  · obtain ⟨c, more, rfl, hc⟩ := hdocument.begins
    rw [hline, List.cons_append, List.head?_cons] at h
    cases h
    exact absurd hc (by simp [JsonGrammar.BeginsValue])

private theorem not_machineReadable_table {ρ : Type} [Tabular ρ] (trace : Array ρ) :
    ¬MachineReadable (table trace) := by
  have hfield : (Decimal.rightAlign iterationWidth "Iteration").toList = "Iteration".toList := by
    decide
  apply not_machineReadable_of_head
  simp only [table, tableLine, String.toList_append, hfield]
  rfl

end Outputs

section RootFinders

variable {ρ ε : Type} [Tabular ρ] {record : ρ → Json} {log : List Journal.Entry} {attempt : String}
  {causes : ε → List String} {trace? : ε → Option (Array ρ)}

private theorem machineReadable_runOutcome_iff {result : Except ε (Solution ρ Float)} :
    MachineReadable (runOutcome true record log attempt causes trace? result).output ↔
      ¬∃ error trace, result = .error error ∧ trace? error = some trace ∧ trace ≠ #[] := by
  cases result with
  | ok solution =>
    refine iff_of_true (machineReadable_line (isValue_pretty _)) ?_
    rintro ⟨error, trace, hresult, _⟩
    cases hresult
  | error error =>
    cases hkept : trace? error with
    | none =>
      simp only [runOutcome, hkept]
      refine iff_of_true (.inl rfl) ?_
      rintro ⟨_, trace, hresult, htrace, _⟩
      cases hresult
      cases hkept.symm.trans htrace
    | some trace =>
      simp only [runOutcome, hkept]
      by_cases hempty : trace = #[]
      · refine iff_of_true (.inl (by simp [hempty])) ?_
        rintro ⟨_, _, hresult, htrace, hne⟩
        cases hresult
        rw [hkept] at htrace
        cases htrace
        exact hne hempty
      · rw [if_neg (by simpa using hempty)]
        exact iff_of_false (not_machineReadable_table trace)
          (not_not.mpr ⟨error, trace, rfl, hkept, hempty⟩)

end RootFinders

section Tasks

variable {task : Task} {formula : String} {given : GivenLimits} {expression : Expression}
  {limits : Limits Float} {x y : Float}

private theorem Prepared.machineReadable_bisection_iff
    (prepared : Prepared formula given expression limits) :
    MachineReadable ((Task.bisection formula x y given).outcome true).output ↔
      ¬∃ error trace, Bisection.solve (ε := Empty) expression.call x y limits = .error error ∧
        error.trace? = some trace ∧ trace ≠ #[] := by
  obtain ⟨log, houtcome⟩ := prepared.outcome_bisection true
  rw [houtcome]
  exact machineReadable_runOutcome_iff

private theorem Prepared.machineReadable_secant_iff (prepared : Prepared formula given expression limits) :
    MachineReadable ((Task.secant formula x y given).outcome true).output ↔
      ¬∃ error trace, Secant.solve (ε := Empty) expression.call x y limits = .error error ∧
        error.trace? = some trace ∧ trace ≠ #[] := by
  obtain ⟨log, houtcome⟩ := prepared.outcome_secant true
  rw [houtcome]
  exact machineReadable_runOutcome_iff

private theorem StopsMidway.not_machineReadable (h : StopsMidway task) :
    ¬MachineReadable (task.outcome true).output := by
  cases h with
  | bisection prepared failed kept some =>
    rw [prepared.machineReadable_bisection_iff, not_not]
    exact ⟨_, _, failed, kept, some⟩
  | secant prepared failed kept some =>
    rw [prepared.machineReadable_secant_iff, not_not]
    exact ⟨_, _, failed, kept, some⟩

private theorem Finds.machineReadable {status : Status} (h : Finds task status) :
    MachineReadable (task.outcome true).output := by
  cases h with
  | bisection prepared found =>
    rw [prepared.machineReadable_bisection_iff, found]
    nofun
  | secant prepared found =>
    rw [prepared.machineReadable_secant_iff, found]
    nofun

private theorem Succeeds.machineReadable (h : Succeeds task) :
    MachineReadable (task.outcome true).output := by
  cases h with
  | eval parsed finite =>
    simp only [Task.outcome, evalOutcome, withFormula, parsed, finite]
    exact machineReadable_line (isValue_compact _)
  | root found => exact found.machineReadable
  | solve valid solved =>
    simp only [Linear.solve] at solved
    simp only [Task.outcome, solveOutcome, valid, solved]
    exact machineReadable_line (isValue_pretty _)
  | template supported =>
    obtain ⟨matrix, hmatrix⟩ := zeros_of_admits supported
    simp only [Task.outcome, templateOutcome, supported, if_true, hmatrix]
    exact machineReadable_line (isValue_compact _)

private theorem SolverFails.machineReadable (h : SolverFails task) (hstops : ¬StopsMidway task) :
    MachineReadable (task.outcome true).output := by
  cases h with
  | eval parsed infinite =>
    exact machineReadable_of_endsSilently (evalOutcome_endsSilently parsed infinite)
  | bisection prepared failed =>
    rw [prepared.machineReadable_bisection_iff]
    rintro ⟨error, trace, failed, kept, some⟩
    exact hstops (.bisection prepared failed kept some)
  | secant prepared failed =>
    rw [prepared.machineReadable_secant_iff]
    rintro ⟨error, trace, failed, kept, some⟩
    exact hstops (.secant prepared failed kept some)
  | solve valid failed =>
    exact machineReadable_of_endsSilently (solveOutcome_endsSilently valid failed)

/-- Asked for a document, a task prints one or nothing, unless it stops midway. -/
theorem machineReadable_outcome_iff (task : Task) :
    MachineReadable (task.outcome true).output ↔ ¬StopsMidway task := by
  refine ⟨fun h hstops => hstops.not_machineReadable h, fun hstops => ?_⟩
  obtain (limit | success) | invalid | failure := ends task
  · exact limit.machineReadable
  · exact success.machineReadable
  · exact machineReadable_of_endsSilently invalid.endsSilently
  · exact failure.machineReadable hstops

end Tasks

section CommandLines

variable {environment : Option String} {words : List String} {request : Request}

private theorem answer_of_ok (h : readRequest environment words = .ok request) :
    answer environment words = .written request.perform := by
  simp only [answer, h]

/-- An accepted command line that asks for documents is answered by output that is machine-readable,
exactly if its task is not a root finder that stops midway. -/
theorem answer_machineReadable_iff (hread : readRequest environment words = .ok request)
    (hjson : request.json = true) :
    ∃ written, answer environment words = .written written ∧
      (MachineReadable written.output ↔ ¬StopsMidway request.task) := by
  refine ⟨request.perform, answer_of_ok hread, ?_⟩
  have houtput : request.perform.output = (request.task.outcome true).output := by
    rw [← hjson]
    rfl
  rw [houtput]
  exact machineReadable_outcome_iff request.task

/-- A formula is evaluated, and its value is printed as a document. -/
theorem answer_machineReadable_eval :
    ∃ request written, readRequest none ["--json", "eval", "1/x", "--x", "4"] = .ok request ∧
      answer none ["--json", "eval", "1/x", "--x", "4"] = .written written ∧
      MachineReadable written.output := by
  obtain ⟨request, hread, hjson, htask⟩ : ∃ request,
      readRequest none ["--json", "eval", "1/x", "--x", "4"] = .ok request ∧ request.json = true ∧
        ∃ formula x, request.task = .eval formula x := ⟨_, rfl, rfl, _, _, rfl⟩
  obtain ⟨formula, x, htask⟩ := htask
  obtain ⟨written, hanswer, hreadable⟩ := answer_machineReadable_iff hread hjson
  refine ⟨request, written, hread, hanswer, hreadable.mpr ?_⟩
  rw [htask]
  nofun

/-- Bisection comes to a pole with its first midpoint. Asked for a document, it prints a table. -/
theorem answer_unreadable_at_pole :
    ∃ request written,
      readRequest none ["--json", "bisection", "1/x", "-a", "-1", "-b", "1"] = .ok request ∧
      request.json = true ∧
      answer none ["--json", "bisection", "1/x", "-a", "-1", "-b", "1"] = .written written ∧
      ¬MachineReadable written.output := by
  obtain ⟨written, hanswer, hhead⟩ : ∃ written,
      answer none ["--json", "bisection", "1/x", "-a", "-1", "-b", "1"] = .written written ∧
        written.output.toList.head? = some 'I' := ⟨_, rfl, by decide +kernel⟩
  exact ⟨_, written, rfl, rfl, hanswer, not_machineReadable_of_head hhead⟩

end CommandLines

end EquationSolver.CommandLine
