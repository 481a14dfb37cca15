import EquationSolver.Proofs.Roots.Device

/-!
# Methods with memory

The secant method is written out for models with memory, as bisection is. Both are again one loop: its
place holds the memory of the model beside the interval or the points.
-/

namespace EquationSolver.Roots

def Run.mapStart {κ κ' ρ σ ε α : Type} (f : κ → κ') (run : Run κ ρ σ ε α) : Run κ' ρ σ ε α :=
  ⟨run.start?.map f, run.records, run.observer, run.result⟩

namespace Secant

variable {μ σ ε α : Type} [Scalar α]

def valueAtWith (device : Device μ ε α) (memory : μ) (x : α) (trace : Array (Record α)) :
    μ × Except (Error ε α) α :=
  ((device memory x).1, valueAt (fun x => (device memory x).2) x trace)

/-- The next record from two points, the values being taken at the first point first. -/
def nextWith (device : Device μ ε α) (memory : μ) (x0 x1 : α) (trace : Array (Record α)) :
    μ × Except (Error ε α) (Record α) :=
  match valueAtWith device memory x0 trace with
  | (memory, .error error) => (memory, .error error)
  | (memory, .ok fx0) =>
      match valueAtWith device memory x1 trace with
      | (memory, .error error) => (memory, .error error)
      | (memory, .ok fx1) =>
          (memory,
            if Scalar.less (Scalar.magnitude (fx1 - fx0)) degenerateSlope then
              .error (.degenerate (trace.size + 1) x0 x1 fx0 fx1 trace)
            else .ok (record (trace.size + 1) x0 x1 fx0 fx1))

def iterateWith (device : Device μ ε α) (tolerance : α) (observe : Observer σ (Record α))
    (start : α × α) :
    Nat → α → α → Array (Record α) → σ → μ → μ × Run (α × α) (Record α) σ (Error ε α) α
  | 0, _, x1, trace, state, memory =>
      (memory, ⟨some start, trace, state, .ok ⟨.maxIters, x1, trace⟩⟩)
  | left + 1, x0, x1, trace, state, memory =>
      match nextWith device memory x0 x1 trace with
      | (memory, .error error) => (memory, ⟨some start, trace, state, .error error⟩)
      | (memory, .ok made) =>
          let (state, directive) := observe state made
          let trace := trace.push made
          if Scalar.less made.error tolerance then
            (memory, ⟨some start, trace, state, .ok ⟨.converged, made.x2, trace⟩⟩)
          else if directive = .stopEarly then
            (memory, ⟨some start, trace, state, .ok ⟨.stoppedByObserver, made.x2, trace⟩⟩)
          else iterateWith device tolerance observe start left x1 made.x2 trace state memory

/-- Seeks a root of a model with memory from two points on. -/
def runWith (device : Device μ ε α) (memory : μ) (x0 x1 : α) (limits : Limits α)
    (observe : Observer σ (Record α)) (state : σ) :
    μ × Run (α × α) (Record α) σ (Error ε α) α :=
  if !Scalar.isFinite x0 then (memory, ⟨none, #[], state, .error (.nonFinitePoint x0)⟩)
  else if !Scalar.isFinite x1 then (memory, ⟨none, #[], state, .error (.nonFinitePoint x1)⟩)
  else
    iterateWith device limits.tolerance observe (x0, x1) limits.maxIters x0 x1 #[] state memory

private theorem nextWith_ofModel (f : Model ε α) (x0 x1 : α) (trace : Array (Record α)) :
    nextWith (.ofModel f) () x0 x1 trace = ((), next f x0 x1 trace) := by
  simp only [nextWith, next, valueAtWith, Device.ofModel]
  cases hx0 : valueAt f x0 trace with
  | error error => rfl
  | ok fx0 =>
    cases hx1 : valueAt f x1 trace with
    | error error => rfl
    | ok fx1 => rfl

private theorem iterateWith_ofModel (f : Model ε α) (tolerance : α) (observe : Observer σ (Record α))
    (start : α × α) (left : Nat) (x0 x1 : α) (trace : Array (Record α)) (state : σ) :
    iterateWith (.ofModel f) tolerance observe start left x0 x1 trace state () =
      ((), iterate f tolerance observe start left x0 x1 trace state) := by
  induction left generalizing x0 x1 trace state with
  | zero => rfl
  | succ left ih =>
    simp only [iterateWith, iterate, nextWith_ofModel]
    cases hnext : next f x0 x1 trace with
    | error error => rfl
    | ok made =>
      simp only
      split
      · rfl
      split
      · rfl
      exact ih ..

theorem runWith_ofModel (f : Model ε α) (x0 x1 : α) (limits : Limits α)
    (observe : Observer σ (Record α)) (state : σ) :
    runWith (.ofModel f) () x0 x1 limits observe state = ((), run f x0 x1 limits observe state) := by
  unfold runWith run
  split
  · rfl
  split
  · rfl
  exact iterateWith_ofModel ..

private theorem memory_of_nextWith_eq_ok {device : Device μ ε α} {memory after : μ} {x0 x1 : α}
    {trace : Array (Record α)} {made : Record α}
    (h : nextWith device memory x0 x1 trace = (after, .ok made)) :
    (device (device memory x0).1 x1).1 = after := by
  simp only [nextWith, valueAtWith] at h
  cases hx0 : valueAt (fun x => (device memory x).2) x0 trace with
  | error error =>
    rw [hx0] at h
    cases h
  | ok fx0 =>
    cases hx1 : valueAt (fun x => (device (device memory x0).1 x).2) x1 trace with
    | error error =>
      rw [hx0] at h
      simp only [hx1] at h
      cases h
    | ok fx1 =>
      rw [hx0] at h
      simp only [hx1] at h
      exact congrArg Prod.fst h

def methodWith (device : Device μ ε α) : Method (μ × α × α) (Record α) (Error ε α) α where
  next place trace := (nextWith device place.1 place.2.1 place.2.2 trace).2
  fault? _ := none
  advance place made :=
    ((device (device place.1 place.2.1).1 place.2.2).1, place.2.2, made.x2)
  estimate := Record.x2
  current place := place.2.2

private theorem iterateWith_eq (device : Device μ ε α) (tolerance : α) (observe : Observer σ (Record α))
    (first : μ) (start : α × α) (left : Nat) (x0 x1 : α) (trace : Array (Record α)) (state : σ)
    (memory : μ) (hlast : ∀ last, trace.back? = some last → last.x2 = x1) :
    (iterateWith device tolerance observe start left x0 x1 trace state memory).2 =
      ((methodWith device).iterate tolerance observe (first, start) left (memory, x0, x1) trace
        state).mapStart Prod.snd := by
  induction left generalizing x0 x1 trace state memory with
  | zero =>
    have hroot : x1 = (trace.back?.map Record.x2).getD x1 := by
      cases hback : trace.back? with
      | none => rfl
      | some last => exact (hlast last hback).symm
    simp only [iterateWith, Method.iterate, methodWith, Run.mapStart]
    rw [← hroot]
    rfl
  | succ left ih =>
    rcases hnext : nextWith device memory x0 x1 trace with ⟨after, error | made⟩
    · simp only [iterateWith, Method.iterate, methodWith, hnext]
      rfl
    · have hstep := ih x1 made.x2 (trace.push made) (observe state made).1 after (by simp)
      obtain rfl := memory_of_nextWith_eq_ok hnext
      have herror : IterationRecord.error made = made.error := rfl
      simp only [iterateWith, Method.iterate, Method.verdict, methodWith, hnext, herror]
      by_cases hless : Scalar.less made.error tolerance = true
      · rw [if_pos hless, if_pos hless]
        rfl
      · rw [if_neg hless, if_neg hless]
        by_cases hstop : (observe state made).2 = .stopEarly
        · rw [if_pos hstop, if_pos hstop]
          rfl
        · rw [if_neg hstop, if_neg hstop]
          exact hstep

theorem runWith_eq (device : Device μ ε α) (memory : μ) (x0 x1 : α) (limits : Limits α)
    (observe : Observer σ (Record α)) (state : σ) :
    (runWith device memory x0 x1 limits observe state).2 =
      ((methodWith device).run ((accept x0 x1).map (memory, ·)) limits observe state).mapStart
        Prod.snd := by
  unfold runWith Method.run accept
  split
  · rfl
  split
  · rfl
  exact iterateWith_eq _ _ _ _ _ _ _ _ _ _ _ (by simp)

end Secant

namespace Bisection

variable {μ σ ε α : Type} [Scalar α]

def methodWith (device : Device μ ε α) : Method (μ × Interval α) (Record α) (Error ε α) α where
  next place trace :=
    match (device place.1 place.2.midpoint).2 with
    | .error cause => .error (.model cause)
    | .ok fc => .ok (record (trace.size + 1) place.2 fc)
  fault? made := if Scalar.isFinite made.fc then none else some (.nonFiniteValue made.c made.fc)
  advance place made := ((device place.1 place.2.midpoint).1, place.2.keepHalf made.c made.fc)
  estimate := Record.c
  current place := place.2.midpoint

private theorem iterateWith_eq (device : Device μ ε α) (tolerance : α) (observe : Observer σ (Record α))
    (first : μ) (start : Interval α) (left : Nat) (interval : Interval α) (trace : Array (Record α))
    (state : σ) (memory : μ) :
    (iterateWith device tolerance observe start left interval trace state memory).2 =
      ((methodWith device).iterate tolerance observe (first, start) left (memory, interval) trace
        state).mapStart Prod.snd := by
  induction left generalizing interval trace state memory with
  | zero => rfl
  | succ left ih =>
    rcases hcall : device memory interval.midpoint with ⟨after, cause | fc⟩
    · simp only [iterateWith, Method.iterate, methodWith, hcall]
      rfl
    · simp only [iterateWith, Method.iterate, Method.verdict, methodWith, hcall]
      generalize hmade : record (trace.size + 1) interval fc = made
      have hfc : made.fc = fc := hmade ▸ rfl
      have herror : IterationRecord.error made = made.error := rfl
      rw [hfc, herror]
      by_cases hless : Scalar.less made.error tolerance = true
      · rw [if_pos hless, if_pos hless]
        rfl
      · rw [if_neg hless, if_neg hless]
        by_cases hstop : (observe state made).2 = .stopEarly
        · rw [if_pos hstop, if_pos hstop]
          rfl
        · rw [if_neg hstop, if_neg hstop]
          cases hfinite : Scalar.isFinite fc with
          | false => rfl
          | true => exact ih ..

def placeWith (device : Device μ ε α) (memory : μ) (x y : α) :
    Except (Error ε α) (μ × Interval α) :=
  (enterWith device memory x y).2.map ((enterWith device memory x y).1, ·)

theorem runWith_eq (device : Device μ ε α) (memory : μ) (x y : α) (limits : Limits α)
    (observe : Observer σ (Record α)) (state : σ) :
    (runWith device memory x y limits observe state).2 =
      ((methodWith device).run (placeWith device memory x y) limits observe state).mapStart
        Prod.snd := by
  unfold runWith Method.run placeWith
  rcases enterWith device memory x y with ⟨after, error | interval⟩
  · rfl
  · exact iterateWith_eq ..

end Bisection

end EquationSolver.Roots
