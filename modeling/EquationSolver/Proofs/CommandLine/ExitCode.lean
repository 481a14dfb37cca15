import EquationSolver.Proofs.CommandLine.Endings

/-!
# Exit codes

The program documents three exit codes: 0 for a result, 1 for invalid input or a failure, and 2 for a
root finder that reached its iteration limit. Every accepted command line keeps to them, whichever
layer decides about it. A command line that is refused exits with 2 as well, although its input is
invalid, so the code 2 alone does not tell a refusal from a spent limit.
-/

namespace EquationSolver.CommandLine

open Formula Roots

section Codes

variable {task : Task} {json : Bool}

private theorem exitCode_of_endsSilently {outcome : Outcome} (h : EndsSilently outcome) :
    exitCode outcome.result = 1 := by
  obtain ⟨log, failure, rfl⟩ := h
  rfl

private theorem exitCode_of_finds {status : Status} (found : Finds task status) :
    exitCode (task.outcome json).result = exitCode (.ok (some status)) := by
  cases found with
  | bisection prepared found =>
    obtain ⟨log, houtcome⟩ := prepared.outcome_bisection json
    rw [houtcome, found]
    rfl
  | secant prepared found =>
    obtain ⟨log, houtcome⟩ := prepared.outcome_secant json
    rw [houtcome, found]
    rfl

private theorem exitCode_of_succeeds (success : Succeeds task) :
    exitCode (task.outcome json).result = 0 := by
  cases success with
  | eval parsed finite =>
    simp only [Task.outcome, evalOutcome, withFormula, parsed, finite, exitCode]
  | @root _ status found early =>
    rw [exitCode_of_finds found]
    cases status with
    | maxIters => exact absurd rfl early
    | converged | stoppedByObserver => rfl
  | solve valid solved =>
    simp only [Linear.solve] at solved
    simp only [Task.outcome, solveOutcome, valid, solved, exitCode]
  | template supported =>
    obtain ⟨matrix, hmatrix⟩ := zeros_of_admits supported
    simp only [Task.outcome, templateOutcome, supported, if_true, hmatrix, exitCode]

private theorem exitCode_of_fails (failure : SolverFails task) :
    exitCode (task.outcome json).result = 1 := by
  cases failure with
  | eval parsed infinite => exact exitCode_of_endsSilently (evalOutcome_endsSilently parsed infinite)
  | bisection prepared failed =>
    obtain ⟨log, houtcome⟩ := prepared.outcome_bisection json
    rw [houtcome, failed]
    rfl
  | secant prepared failed =>
    obtain ⟨log, houtcome⟩ := prepared.outcome_secant json
    rw [houtcome, failed]
    rfl
  | solve valid failed => exact exitCode_of_endsSilently (solveOutcome_endsSilently valid failed)

private theorem exitCode_iff (task : Task) (json : Bool) :
    (exitCode (task.outcome json).result = 2 ↔ Finds task .maxIters) ∧
      (exitCode (task.outcome json).result = 0 ↔ Succeeds task) ∧
      (exitCode (task.outcome json).result = 1 ↔ InvalidInput task ∨ SolverFails task) := by
  have htwo : Finds task .maxIters → exitCode (task.outcome json).result = 2 := exitCode_of_finds
  have hzero : Succeeds task → exitCode (task.outcome json).result = 0 := exitCode_of_succeeds
  have hone : InvalidInput task ∨ SolverFails task → exitCode (task.outcome json).result = 1 :=
    Or.rec (exitCode_of_endsSilently ·.endsSilently) exitCode_of_fails
  -- a task comes to some end, and the codes of the other two differ from the given one
  refine ⟨⟨fun h => ?_, htwo⟩, ⟨fun h => ?_, hzero⟩, ⟨fun h => ?_, hone⟩⟩
  · obtain (limit | success) | failure := ends task
    · exact limit
    · exact absurd (h.symm.trans (hzero success)) (by decide)
    · exact absurd (h.symm.trans (hone failure)) (by decide)
  · obtain (limit | success) | failure := ends task
    · exact absurd (h.symm.trans (htwo limit)) (by decide)
    · exact success
    · exact absurd (h.symm.trans (hone failure)) (by decide)
  · obtain (limit | success) | failure := ends task
    · exact absurd (h.symm.trans (htwo limit)) (by decide)
    · exact absurd (h.symm.trans (hzero success)) (by decide)
    · exact failure

end Codes

section CommandLines

variable (environment : Option String) (words : List String)

def IsQuery : Prop :=
  ∃ command, readRequest environment words = .error (.help command) ∨
    readRequest environment words = .error (.version command)

def Refused : Prop :=
  ∃ refusal, readRequest environment words = .error (.refused refusal)

/-- The command line is accepted, and its task comes to an end. -/
def ComesTo (ending : Task → Prop) : Prop :=
  ∃ request, readRequest environment words = .ok request ∧ ending request.task

/-- The exit code tells the outcomes apart as it is documented. A refused command line is invalid
input. -/
structure ExitDocumented : Prop where
  limit : (answer environment words).exit = 2 ↔ ComesTo environment words (Finds · .maxIters)
  success : (answer environment words).exit = 0 ↔ ComesTo environment words Succeeds
  failure : (answer environment words).exit = 1 ↔
    Refused environment words ∨
      ComesTo environment words fun task => InvalidInput task ∨ SolverFails task

variable {environment words}

private theorem exit_of_ok {request : Request} (h : readRequest environment words = .ok request) :
    (answer environment words).exit = exitCode (request.task.outcome request.json).result := by
  simp only [answer, h, Answer.exit, Request.perform]

private theorem exit_of_refused (h : Refused environment words) : (answer environment words).exit = 2 := by
  obtain ⟨refusal, h⟩ := h
  simp only [answer, h, Answer.exit]

private theorem comesTo_iff {request : Request} (h : readRequest environment words = .ok request)
    (ending : Task → Prop) : ComesTo environment words ending ↔ ending request.task := by
  constructor
  · rintro ⟨other, hother, hending⟩
    rw [h] at hother
    cases hother
    exact hending
  · exact fun hending => ⟨request, h, hending⟩

private theorem not_comesTo_of_refused (h : Refused environment words) (ending : Task → Prop) :
    ¬ComesTo environment words ending := by
  rintro ⟨request, hrequest, _⟩
  obtain ⟨refusal, hrefusal⟩ := h
  cases hrefusal.symm.trans hrequest

private theorem not_refused_of_ok {request : Request} (h : readRequest environment words = .ok request) :
    ¬Refused environment words :=
  fun hrefused => not_comesTo_of_refused hrefused (fun _ => True) ⟨request, h, trivial⟩

private theorem accepted_or_refused (h : ¬IsQuery environment words) :
    (∃ request, readRequest environment words = .ok request) ∨ Refused environment words := by
  cases hread : readRequest environment words with
  | ok request => exact .inl ⟨request, rfl⟩
  | error interrupt =>
    cases interrupt with
    | refused refusal => exact .inr ⟨refusal, hread⟩
    | help command => exact absurd ⟨command, .inl hread⟩ h
    | version command => exact absurd ⟨command, .inr hread⟩ h

/-- The exit codes are as documented exactly for the command lines that are accepted. What the codes
say of all command lines: 0 and 1 stand for the documented ends of accepted ones, and 2 for a refusal
or a spent limit. -/
theorem exit_documented_iff_accepted (h : ¬IsQuery environment words) :
    (ExitDocumented environment words ↔
        ∃ request, readRequest environment words = .ok request) ∧
      ((answer environment words).exit = 2 ↔
        Refused environment words ∨ ComesTo environment words (Finds · .maxIters)) ∧
      ((answer environment words).exit = 0 ↔ ComesTo environment words Succeeds) ∧
      ((answer environment words).exit = 1 ↔
        ComesTo environment words fun task => InvalidInput task ∨ SolverFails task) := by
  obtain ⟨request, hrequest⟩ | hrefused := accepted_or_refused h
  · have hnot := not_refused_of_ok hrequest
    obtain ⟨htwo, hzero, hone⟩ := exitCode_iff request.task request.json
    have hlimit := htwo.trans (comesTo_iff hrequest (Finds · .maxIters)).symm
    have hsuccess := hzero.trans (comesTo_iff hrequest Succeeds).symm
    have hfailure := hone.trans
      (comesTo_iff hrequest fun task => InvalidInput task ∨ SolverFails task).symm
    rw [← exit_of_ok hrequest] at hlimit hsuccess hfailure
    refine ⟨iff_of_true ⟨hlimit, hsuccess, ?_⟩ ⟨request, hrequest⟩, ?_, hsuccess, hfailure⟩
    · rw [hfailure, or_iff_right hnot]
    · rw [hlimit, or_iff_right hnot]
  · have hexit := exit_of_refused hrefused
    have hnot := not_comesTo_of_refused hrefused
    rw [hexit]
    refine ⟨iff_of_false (fun documented => ?_) ?_, iff_of_true rfl (.inl hrefused),
      iff_of_false (by decide) (hnot _), iff_of_false (by decide) (hnot _)⟩
    · exact hnot _ (documented.limit.mp hexit)
    · rintro ⟨request, hrequest⟩
      exact not_refused_of_ok hrequest hrefused

/-- A secant method with one iteration is accepted, and its limit is told by the exit code. -/
theorem exit_documented_at_limit :
    let words := ["secant", "x*x - 2", "--x0", "1", "--x1", "2", "--max-iters", "1"]
    ¬IsQuery none words ∧ ExitDocumented none words ∧ ComesTo none words (Finds · .maxIters) := by
  intro words
  obtain ⟨request, hrequest⟩ : ∃ request, readRequest none words = .ok request := ⟨_, rfl⟩
  have hquery : ¬IsQuery none words := by
    rintro ⟨command, h | h⟩ <;> cases hrequest.symm.trans h
  have hcodes := exit_documented_iff_accepted hquery
  have hexit : (answer none words).exit = 2 := by decide +kernel
  exact ⟨hquery, hcodes.1.mpr ⟨request, hrequest⟩,
    (hcodes.2.1.mp hexit).resolve_left (not_refused_of_ok hrequest)⟩

/-- A row with an entry that is no number is invalid input, and exits like a spent limit. -/
theorem invalid_row_exits_as_limit :
    let words := ["gauss", "1,two,3"]
    ¬IsQuery none words ∧ Refused none words ∧ (answer none words).exit = 2 ∧
      ¬ExitDocumented none words := by
  intro words
  obtain ⟨refusal, hread⟩ : Refused none words := ⟨_, rfl⟩
  have hexit := exit_of_refused ⟨refusal, hread⟩
  refine ⟨?_, ⟨refusal, hread⟩, hexit, fun documented => ?_⟩
  · rintro ⟨command, h | h⟩ <;> cases hread.symm.trans h
  · exact not_comesTo_of_refused ⟨refusal, hread⟩ _ (documented.limit.mp hexit)

end CommandLines

end EquationSolver.CommandLine
