import EquationSolver.Proofs.Roots.Method

/-!
# Models with memory

A model need not be a function: what it answers may depend on the points it was asked for before.
Bisection is written out for such models here. On a function it is the run of `Bisection.run`.
-/

namespace EquationSolver.Roots

/-- A model that remembers: from its memory and a point, its next memory and an answer. -/
abbrev Device (μ ε α : Type) := μ → α → μ × Except ε α

namespace Device

variable {μ ε α : Type}

def ofModel (f : Model ε α) : Device Unit ε α :=
  fun _ x => ((), f x)

/-- The model that also keeps a list of the points it was asked for. -/
def logged (device : Device μ ε α) : Device (μ × List α) ε α :=
  fun (memory, calls) x => (((device memory x).1, calls ++ [x]), (device memory x).2)

end Device

namespace Bisection

variable {μ σ ε α : Type} [Scalar α]

/-- Evaluates the ends of a bracket, the left one first. -/
def enterWith (device : Device μ ε α) (memory : μ) (x y : α) : μ × Except (Error ε α) (Interval α) :=
  match ordered x y with
  | .error cause => (memory, .error (.invalidBracket cause))
  | .ok (a, b) =>
      match device memory a with
      | (memory, .error cause) => (memory, .error (.model cause))
      | (memory, .ok fa) =>
          if !Scalar.isFinite fa then (memory, .error (.nonFiniteValue a fa #[]))
          else
            match device memory b with
            | (memory, .error cause) => (memory, .error (.model cause))
            | (memory, .ok fb) =>
                if !Scalar.isFinite fb then (memory, .error (.nonFiniteValue b fb #[]))
                else
                  match Interval.ofEnds? a b fa fb with
                  | none => (memory, .error (.noSignChange a b fa fb))
                  | some interval => (memory, .ok interval)

def iterateWith (device : Device μ ε α) (tolerance : α) (observe : Observer σ (Record α))
    (start : Interval α) :
    Nat → Interval α → Array (Record α) → σ → μ → μ × Run (Interval α) (Record α) σ (Error ε α) α
  | 0, interval, trace, state, memory =>
      let root := (trace.back?.map (·.c)).getD interval.midpoint
      (memory, ⟨some start, trace, state, .ok ⟨.maxIters, root, trace⟩⟩)
  | left + 1, interval, trace, state, memory =>
      match device memory interval.midpoint with
      | (memory, .error cause) => (memory, ⟨some start, trace, state, .error (.model cause)⟩)
      | (memory, .ok fc) =>
          let made := record (trace.size + 1) interval fc
          let (state, directive) := observe state made
          let trace := trace.push made
          if Scalar.less made.error tolerance then
            (memory, ⟨some start, trace, state, .ok ⟨.converged, made.c, trace⟩⟩)
          else if directive = .stopEarly then
            (memory, ⟨some start, trace, state, .ok ⟨.stoppedByObserver, made.c, trace⟩⟩)
          else if !Scalar.isFinite fc then
            (memory, ⟨some start, trace, state, .error (.nonFiniteValue made.c fc trace)⟩)
          else
            iterateWith device tolerance observe start left (interval.keepHalf made.c fc) trace state
              memory

/-- Seeks a root of a model with memory between two numbers. -/
def runWith (device : Device μ ε α) (memory : μ) (x y : α) (limits : Limits α)
    (observe : Observer σ (Record α)) (state : σ) :
    μ × Run (Interval α) (Record α) σ (Error ε α) α :=
  match enterWith device memory x y with
  | (memory, .error error) => (memory, ⟨none, #[], state, .error error⟩)
  | (memory, .ok interval) =>
      iterateWith device limits.tolerance observe interval limits.maxIters interval #[] state memory

private theorem iterateWith_ofModel (f : Model ε α) (tolerance : α) (observe : Observer σ (Record α))
    (start : Interval α) (left : Nat) (interval : Interval α) (trace : Array (Record α)) (state : σ) :
    iterateWith (.ofModel f) tolerance observe start left interval trace state () =
      ((), iterate f tolerance observe start left interval trace state) := by
  induction left generalizing interval trace state with
  | zero => rfl
  | succ left ih =>
    cases hf : f interval.midpoint with
    | error cause => simp only [iterateWith, iterate, Device.ofModel, hf]
    | ok fc =>
      simp only [iterateWith, iterate, Device.ofModel, hf]
      split
      · rfl
      split
      · rfl
      split
      · rfl
      exact ih ..

private theorem enterWith_ofModel (f : Model ε α) (x y : α) :
    enterWith (.ofModel f) () x y = ((), enter f x y) := by
  unfold enterWith enter Device.ofModel
  cases ordered x y with
  | error cause => rfl
  | ok ends =>
    obtain ⟨a, b⟩ := ends
    cases ha : f a with
    | error cause => simp only [ha]
    | ok fa =>
      cases hb : f b with
      | error cause => simp only [ha, hb, apply_ite (Prod.mk ())]
      | ok fb =>
        cases hends : Interval.ofEnds? a b fa fb <;> simp only [ha, hb, hends, apply_ite (Prod.mk ())]

theorem runWith_ofModel (f : Model ε α) (x y : α) (limits : Limits α)
    (observe : Observer σ (Record α)) (state : σ) :
    runWith (.ofModel f) () x y limits observe state = ((), run f x y limits observe state) := by
  unfold runWith run
  rw [enterWith_ofModel]
  cases enter f x y with
  | error error => rfl
  | ok interval => exact iterateWith_ofModel ..

section Logged

variable (device : Device μ ε α)

private theorem iterateWith_logged (tolerance : α) (observe : Observer σ (Record α)) (start : Interval α)
    (left : Nat) (interval : Interval α) (trace : Array (Record α)) (state : σ) (memory : μ)
    (calls : List α) :
    (iterateWith device.logged tolerance observe start left interval trace state (memory, calls)).2 =
      (iterateWith device tolerance observe start left interval trace state memory).2 := by
  induction left generalizing interval trace state memory calls with
  | zero => rfl
  | succ left ih =>
    rcases hdevice : device memory interval.midpoint with ⟨next, cause | fc⟩
    · simp only [iterateWith, Device.logged, hdevice]
    · simp only [iterateWith, Device.logged, hdevice]
      split
      · rfl
      split
      · rfl
      split
      · rfl
      exact ih ..

private theorem enterWith_logged (memory : μ) (calls : List α) (x y : α) :
    (enterWith device.logged (memory, calls) x y).1.1 = (enterWith device memory x y).1 ∧
      (enterWith device.logged (memory, calls) x y).2 = (enterWith device memory x y).2 := by
  unfold enterWith Device.logged
  cases ordered x y with
  | error cause => exact ⟨rfl, rfl⟩
  | ok ends =>
    obtain ⟨a, b⟩ := ends
    rcases ha : device memory a with ⟨after, cause | fa⟩
    · simp only [ha, and_self]
    · rcases hb : device after b with ⟨last, cause | fb⟩
      · simp only [ha, hb]
        split <;> exact ⟨rfl, rfl⟩
      · cases hends : Interval.ofEnds? a b fa fb with
        | none =>
          simp only [ha, hb, hends]
          split
          · exact ⟨rfl, rfl⟩
          · split <;> exact ⟨rfl, rfl⟩
        | some interval =>
          simp only [ha, hb, hends]
          split
          · exact ⟨rfl, rfl⟩
          · split <;> exact ⟨rfl, rfl⟩

theorem enterWith_calls (memory : μ) {x y a b : α} (hordered : ordered x y = .ok (a, b)) :
    (enterWith device.logged (memory, []) x y).1.2 <+: [a, b] ∧
      ∀ interval, (enterWith device.logged (memory, []) x y).2 = .ok interval →
        (enterWith device.logged (memory, []) x y).1.2 = [a, b] ∧ interval.a = a ∧ interval.b = b := by
  unfold enterWith Device.logged
  simp only [hordered]
  rcases ha : device memory a with ⟨after, cause | fa⟩
  · exact ⟨by simp, fun _ hentered => by cases hentered⟩
  cases hfa : Scalar.isFinite fa with
  | false => exact ⟨by simp [hfa], fun _ hentered => by simp [hfa] at hentered⟩
  | true =>
    rcases hb : device after b with ⟨last, cause | fb⟩
    · exact ⟨by simp [hfa, hb], fun _ hentered => by simp [hfa, hb] at hentered⟩
    cases hfb : Scalar.isFinite fb with
    | false => exact ⟨by simp [hfa, hb, hfb], fun _ hentered => by simp [hfa, hb, hfb] at hentered⟩
    | true =>
      cases hends : Interval.ofEnds? a b fa fb with
      | none =>
        exact ⟨by simp [hfa, hb, hfb, hends],
          fun _ hentered => by simp [hfa, hb, hfb, hends] at hentered⟩
      | some interval =>
        obtain ⟨ha', hb', -⟩ := of_ofEnds?_eq_some hends
        refine ⟨by simp [hfa, hb, hfb, hends], fun entered hentered => ?_⟩
        simp only [hfa, hb, hfb, hends, Bool.not_true, Bool.false_eq_true, if_false,
          Except.ok.injEq] at hentered ⊢
        rw [← hentered]
        exact ⟨rfl, ha'.symm, hb'.symm⟩

theorem runWith_logged (memory : μ) (x y : α) (limits : Limits α) (observe : Observer σ (Record α))
    (state : σ) :
    (runWith device.logged (memory, []) x y limits observe state).2 =
      (runWith device memory x y limits observe state).2 := by
  obtain ⟨hmemory, hentered⟩ := enterWith_logged device memory [] x y
  unfold runWith
  generalize enterWith device.logged (memory, []) x y = logged at *
  generalize enterWith device memory x y = plain at *
  obtain ⟨⟨after, calls⟩, entered⟩ := logged
  obtain ⟨plainAfter, plainEntered⟩ := plain
  cases hmemory
  cases hentered
  cases entered with
  | error error => rfl
  | ok interval => exact iterateWith_logged ..

end Logged

end Bisection

end EquationSolver.Roots
