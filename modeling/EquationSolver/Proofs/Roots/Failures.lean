import EquationSolver.Proofs.Roots.Memory

/-!
# What is kept of a failed run

The error of a run that was stopped part-way carries the records made before it, for both methods. Only
the failure of a model carries none: a run that has come far is lost with the call that fails.
-/

namespace EquationSolver.Roots

variable {κ μ ρ σ ε ε' α : Type}

/-- What an error keeps of records: all of them, unless it is that of a model that failed, and then
none. -/
structure Keeps (device : Device μ ε α) (records : Array ρ) (trace? : Option (Array ρ))
    (cause? : Option ε) : Prop where
  kept_iff : trace? = some records ↔ cause? = none
  lost_iff : trace? = none ↔ cause?.isSome = true
  failed : ∀ cause, cause? = some cause → ∃ memory x, (device memory x).2 = .error cause

section

variable {device : Device μ ε α} {records : Array ρ}

private theorem keeps_all : Keeps device records (some records) none where
  kept_iff := by simp
  lost_iff := by simp
  failed _ h := by cases h

private theorem keeps_nothing {memory : μ} {x : α} {cause : ε} (h : (device memory x).2 = .error cause) :
    Keeps device records none (some cause) where
  kept_iff := by simp
  lost_iff := by simp
  failed _ := by
    rintro ⟨⟩
    exact ⟨memory, x, h⟩

end

namespace Bisection

def Error.cause? : Error ε α → Option ε
  | .model cause => some cause
  | .invalidBracket _ | .noSignChange .. | .nonFiniteValue .. => none

end Bisection

namespace Secant

def Error.cause? : Error ε α → Option ε
  | .model cause => some cause
  | .nonFinitePoint _ | .degenerate .. | .nonFiniteValue .. => none

end Secant

variable [Scalar α]

namespace Method

structure Preserves [IterationRecord ρ α] (method : Method κ ρ ε' α) (device : Device μ ε α)
    (trace? : ε' → Option (Array ρ)) (cause? : ε' → Option ε) : Prop where
  next_keeps : ∀ {place trace error}, method.next place trace = .error error →
    Keeps device trace (trace? error) (cause? error)
  fault_keeps : ∀ {made fault} trace, method.fault? made = some fault →
    Keeps device trace (trace? (fault trace)) (cause? (fault trace))

variable [IterationRecord ρ α] {method : Method κ ρ ε' α} {device : Device μ ε α}
  {trace? : ε' → Option (Array ρ)} {cause? : ε' → Option ε}

private theorem Preserves.keeps_of_ends (hpreserves : method.Preserves device trace? cause?) {tolerance : α}
    {observe : Observer σ ρ} {state : σ} {start : κ} {maxIters : Nat} {made : List ρ} {error : ε'}
    (h : Ends method tolerance observe state start maxIters made (.error error)) :
    Keeps device made.toArray (trace? error) (cause? error) := by
  generalize hresult : Except.error error = result at h
  cases h with
  | failed before left next_eq =>
    cases hresult
    exact hpreserves.next_keeps next_eq
  | exhausted before none_left => cases hresult
  | decided before left next_eq decision =>
    obtain ⟨-, herror⟩ | ⟨-, -, herror⟩ | ⟨-, -, fault, hfault, herror⟩ := verdict_cases decision
    · cases hresult.trans herror
    · cases hresult.trans herror
    · cases hresult.trans herror
      exact hpreserves.fault_keeps _ hfault

/-- A run that has handed out records has been started, and its error keeps them. -/
theorem Preserves.keeps (hpreserves : method.Preserves device trace? cause?) {start : Except ε' κ}
    {limits : Limits α} {observe : Observer σ ρ} {state : σ} {error : ε'}
    (h : (method.run start limits observe state).result = .error error)
    (hne : handed (method.run start) limits observe state ≠ []) :
    Keeps device (handed (method.run start) limits observe state).toArray (trace? error)
      (cause? error) := by
  cases start with
  | error refused => simp [handed, run] at hne
  | ok start =>
    obtain ⟨made, result, hends, hrun⟩ := ends_run method start limits observe state
    rw [hrun] at h
    cases h
    rw [hends.handed_eq]
    exact hpreserves.keeps_of_ends hends

end Method

namespace Bisection

private theorem methodWith_preserves (device : Device μ ε α) :
    (methodWith device).Preserves device Error.trace? Error.cause? where
  next_keeps {place trace error} h := by
    cases hcall : (device place.1 place.2.midpoint).2 with
    | error cause =>
      simp only [methodWith, hcall] at h
      cases h
      exact keeps_nothing hcall
    | ok fc =>
      simp only [methodWith, hcall] at h
      cases h
  fault_keeps {made fault} trace h := by
    simp only [methodWith] at h
    split at h
    · cases h
    · cases h
      exact keeps_all

end Bisection

namespace Secant

private theorem keeps_of_valueAtWith {device : Device μ ε α} {memory : μ} {x : α} {trace : Array (Record α)}
    {error : Error ε α} (h : (valueAtWith device memory x trace).2 = .error error) :
    Keeps device trace error.trace? error.cause? := by
  simp only [valueAtWith, valueAt] at h
  split at h
  · next cause hcall =>
    cases h
    exact keeps_nothing hcall
  · split at h
    · cases h
    · cases h
      exact keeps_all

private theorem methodWith_preserves (device : Device μ ε α) :
    (methodWith device).Preserves device Error.trace? Error.cause? where
  next_keeps {place trace error} h := by
    simp only [methodWith, nextWith] at h
    split at h
    · next hx0 =>
      cases h
      exact keeps_of_valueAtWith (congrArg Prod.snd hx0)
    split at h
    · next hx1 =>
      cases h
      exact keeps_of_valueAtWith (congrArg Prod.snd hx1)
    split at h
    · cases h
      exact keeps_all
    · cases h
  fault_keeps _ h := by cases h

end Secant

section Solvers

variable (device : Device μ ε α) (memory : μ) (x y : α)

def Bisection.solverWith :
    Solver (Bisection.Interval α) (Bisection.Record α) (Bisection.Error ε α) α :=
  fun limits observe state => (Bisection.runWith device memory x y limits observe state).2

def Secant.solverWith : Solver (α × α) (Secant.Record α) (Secant.Error ε α) α :=
  fun limits observe state => (Secant.runWith device memory x y limits observe state).2

variable {device memory x y} {limits : Limits α}

private theorem Bisection.keeps_of_solverWith {observe : Observer σ (Bisection.Record α)} {state : σ}
    {error : Bisection.Error ε α}
    (h : (Bisection.solverWith device memory x y limits observe state).result = .error error)
    (hne : handed (Bisection.solverWith device memory x y) limits observe state ≠ []) :
    Keeps device (handed (Bisection.solverWith device memory x y) limits observe state).toArray
      error.trace? error.cause? := by
  simp only [handed, Bisection.solverWith, Bisection.runWith_eq] at h hne ⊢
  exact (Bisection.methodWith_preserves device).keeps h hne

private theorem Secant.keeps_of_solverWith {observe : Observer σ (Secant.Record α)} {state : σ}
    {error : Secant.Error ε α}
    (h : (Secant.solverWith device memory x y limits observe state).result = .error error)
    (hne : handed (Secant.solverWith device memory x y) limits observe state ≠ []) :
    Keeps device (handed (Secant.solverWith device memory x y) limits observe state).toArray
      error.trace? error.cause? := by
  simp only [handed, Secant.solverWith, Secant.runWith_eq] at h hne ⊢
  exact (Secant.methodWith_preserves device).keeps h hne

end Solvers

/-- The error of a run part-way keeps all its records exactly if it is not that of a model that failed.
The model may remember its calls; on a function the runs are those of `run`. -/
theorem records_kept_unless_model_failed :
    (∀ (device : Device μ ε α) (memory : μ) (x y : α) (limits : Limits α)
        (observe : Observer σ (Bisection.Record α)) (state : σ) (error : Bisection.Error ε α),
      (Bisection.solverWith device memory x y limits observe state).result = .error error →
      handed (Bisection.solverWith device memory x y) limits observe state ≠ [] →
        Keeps device (handed (Bisection.solverWith device memory x y) limits observe state).toArray
          error.trace? error.cause?) ∧
    (∀ (device : Device μ ε α) (memory : μ) (x0 x1 : α) (limits : Limits α)
        (observe : Observer σ (Secant.Record α)) (state : σ) (error : Secant.Error ε α),
      (Secant.solverWith device memory x0 x1 limits observe state).result = .error error →
      handed (Secant.solverWith device memory x0 x1) limits observe state ≠ [] →
        Keeps device (handed (Secant.solverWith device memory x0 x1) limits observe state).toArray
          error.trace? error.cause?) ∧
    ∀ (f : Model ε α) (x y : α) (limits : Limits α),
      (∀ (observe : Observer σ (Bisection.Record α)) (state : σ),
        Bisection.solverWith (.ofModel f) () x y limits observe state =
          Bisection.run f x y limits observe state) ∧
      ∀ (observe : Observer σ (Secant.Record α)) (state : σ),
        Secant.solverWith (.ofModel f) () x y limits observe state =
          Secant.run f x y limits observe state := by
  refine ⟨?_, ?_, ?_⟩
  · intro device memory x y limits observe state error
    exact Bisection.keeps_of_solverWith
  · intro device memory x0 x1 limits observe state error
    exact Secant.keeps_of_solverWith
  · intro f x y limits
    constructor
    · intro observe state
      rw [Bisection.solverWith, Bisection.runWith_ofModel]
    · intro observe state
      rw [Secant.solverWith, Secant.runWith_ofModel]

def reciprocal : Model Empty Float :=
  fun x => .ok (1 / x)

/-- Both methods come to the pole with their first estimate, and their errors keep its record. -/
theorem records_kept_at_pole :
    ((handed (Bisection.solverWith (.ofModel reciprocal) () (-2) 2) .standard Observer.silent ()).length
        = 1 ∧
      ∃ error, (Bisection.solverWith (.ofModel reciprocal) () (-2) 2 .standard Observer.silent
          ()).result = .error error ∧
        error.trace? = some (handed (Bisection.solverWith (.ofModel reciprocal) () (-2) 2) .standard
          Observer.silent ()).toArray) ∧
    (handed (Secant.solverWith (.ofModel reciprocal) () (-2) 2) .standard Observer.silent ()).length
        = 1 ∧
      ∃ error, (Secant.solverWith (.ofModel reciprocal) () (-2) 2 .standard Observer.silent
          ()).result = .error error ∧
        error.trace? = some (handed (Secant.solverWith (.ofModel reciprocal) () (-2) 2) .standard
          Observer.silent ()).toArray := by
  constructor
  · have hlength : (handed (Bisection.solverWith (.ofModel reciprocal) () (-2) 2) .standard
        Observer.silent ()).length = 1 := by decide +kernel
    have hresult : ∃ error, (Bisection.solverWith (.ofModel reciprocal) () (-2) 2 .standard
        Observer.silent ()).result = .error error ∧ error.cause?.isNone = true :=
      exists_error_of_check (by decide +kernel)
    obtain ⟨error, hresult, hcause⟩ := hresult
    have hkeeps := records_kept_unless_model_failed.1 _ () _ _ _ _ _ _ hresult
      (List.ne_nil_of_length_eq_add_one hlength)
    exact ⟨hlength, error, hresult, hkeeps.kept_iff.mpr (Option.isNone_iff_eq_none.mp hcause)⟩
  · have hlength : (handed (Secant.solverWith (.ofModel reciprocal) () (-2) 2) .standard
        Observer.silent ()).length = 1 := by decide +kernel
    have hresult : ∃ error, (Secant.solverWith (.ofModel reciprocal) () (-2) 2 .standard
        Observer.silent ()).result = .error error ∧ error.cause?.isNone = true :=
      exists_error_of_check (by decide +kernel)
    obtain ⟨error, hresult, hcause⟩ := hresult
    have hkeeps := records_kept_unless_model_failed.2.1 _ () _ _ _ _ _ _ hresult
      (List.ne_nil_of_length_eq_add_one hlength)
    exact ⟨hlength, error, hresult, hkeeps.kept_iff.mpr (Option.isNone_iff_eq_none.mp hcause)⟩

/-- A parabola measured by a sensor that is offline at some points. -/
def sensor (offline : Float → Bool) : Model String Float :=
  fun x => if offline x then .error "sensor offline" else .ok (2 - x * x)

/-- A sensor that fails at the second estimate, of bisection or of the secant method, loses the record of
the first one. -/
theorem records_lost :
    ((handed (Bisection.run (sensor (· = 1)) 0 4) .standard Observer.silent ()).length = 1 ∧
      ∃ error, (Bisection.run (sensor (· = 1)) 0 4 .standard Observer.silent ()).result = .error error ∧
        error.trace? = none) ∧
    (handed (Secant.run (sensor (1.5 < ·)) 0 1) .standard Observer.silent ()).length = 1 ∧
      ∃ error, (Secant.run (sensor (1.5 < ·)) 0 1 .standard Observer.silent ()).result = .error error ∧
        error.trace? = none := by
  constructor
  · refine ⟨by decide +kernel, ?_⟩
    simp only [← Option.isNone_iff_eq_none]
    exact exists_error_of_check (by decide +kernel)
  · refine ⟨by decide +kernel, ?_⟩
    simp only [← Option.isNone_iff_eq_none]
    exact exists_error_of_check (by decide +kernel)

end EquationSolver.Roots
