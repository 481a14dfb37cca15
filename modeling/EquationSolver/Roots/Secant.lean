import EquationSolver.Decimal.Layout
import EquationSolver.Roots.Run

/-!
# The secant method

Each iteration draws the line through the last two points of the graph and takes its zero as the next
estimate. Nothing brackets the root, so the estimates may wander off; near a simple root they close
in fast. A line that is almost level has no usable zero and ends the run.
-/

namespace EquationSolver.Roots.Secant

variable {ε σ α : Type}

structure Record (α : Type) where
  iter : Nat
  x0 : α
  x1 : α
  fx0 : α
  fx1 : α
  /-- The zero of the secant, which is the estimate of the root. -/
  x2 : α
  /-- How far the estimate lies from the last point. -/
  error : α
deriving Repr

instance : IterationRecord (Record α) α where
  iter := Record.iter
  error := Record.error

/-- Why a run returned no estimate. -/
inductive Error (ε α : Type)
  | nonFinitePoint (value : α)
  | degenerate (iter : Nat) (x0 x1 fx0 fx1 : α) (trace : Array (Record α))
  | nonFiniteValue (x value : α) (trace : Array (Record α))
  | model (cause : ε)

/-- The iterations made before a failure, where the failure keeps them. -/
def Error.trace? : Error ε α → Option (Array (Record α))
  | .degenerate _ _ _ _ _ trace | .nonFiniteValue _ _ trace => some trace
  | .nonFinitePoint _ | .model _ => none

variable [Scalar α]

/-- The least difference of two values between which a secant is drawn. -/
def degenerateSlope : α := 1e-10

/-- The zero of the line through two points. -/
def zeroOfSecant (x0 x1 fx0 fx1 : α) : α :=
  x1 - fx1 * (x1 - x0) / (fx1 - fx0)

/-- The record of an iteration on two points and their values. -/
def record (iter : Nat) (x0 x1 fx0 fx1 : α) : Record α :=
  let x2 := zeroOfSecant x0 x1 fx0 fx1
  ⟨iter, x0, x1, fx0, fx1, x2, Scalar.magnitude (x2 - x1)⟩

/-- The value of a model at a point, if it is finite. -/
def valueAt (f : Model ε α) (x : α) (trace : Array (Record α)) : Except (Error ε α) α :=
  match f x with
  | .error cause => .error (.model cause)
  | .ok value => if Scalar.isFinite value then .ok value else .error (.nonFiniteValue x value trace)

/-- The next record from two points, the values being taken at the first point first. -/
def next (f : Model ε α) (x0 x1 : α) (trace : Array (Record α)) : Except (Error ε α) (Record α) :=
  (valueAt f x0 trace).bind fun fx0 =>
    (valueAt f x1 trace).bind fun fx1 =>
      if Scalar.less (Scalar.magnitude (fx1 - fx0)) degenerateSlope then
        .error (.degenerate (trace.size + 1) x0 x1 fx0 fx1 trace)
      else .ok (record (trace.size + 1) x0 x1 fx0 fx1)

/-- Draws secants, at most as many as iterations are left. -/
def iterate (f : Model ε α) (tolerance : α) (observe : Observer σ (Record α)) (start : α × α) :
    Nat → α → α → Array (Record α) → σ → Run (α × α) (Record α) σ (Error ε α) α
  | 0, _, x1, trace, state => ⟨some start, trace, state, .ok ⟨.maxIters, x1, trace⟩⟩
  | left + 1, x0, x1, trace, state =>
      match next f x0 x1 trace with
      | .error error => ⟨some start, trace, state, .error error⟩
      | .ok made =>
          let (state, directive) := observe state made
          let trace := trace.push made
          if Scalar.less made.error tolerance then
            ⟨some start, trace, state, .ok ⟨.converged, made.x2, trace⟩⟩
          else if directive = .stopEarly then
            ⟨some start, trace, state, .ok ⟨.stoppedByObserver, made.x2, trace⟩⟩
          else iterate f tolerance observe start left x1 made.x2 trace state

/-- Seeks a root of a model from two points on, under the eyes of an observer. -/
def run (f : Model ε α) (x0 x1 : α) (limits : Limits α) (observe : Observer σ (Record α)) (state : σ) :
    Run (α × α) (Record α) σ (Error ε α) α :=
  if !Scalar.isFinite x0 then ⟨none, #[], state, .error (.nonFinitePoint x0)⟩
  else if !Scalar.isFinite x1 then ⟨none, #[], state, .error (.nonFinitePoint x1)⟩
  else iterate f limits.tolerance observe (x0, x1) limits.maxIters x0 x1 #[] state

/-- Seeks a root of a model from two points on. -/
def solve (f : Model ε α) (x0 x1 : α) (limits : Limits α) :
    Except (Error ε α) (Solution (Record α) α) :=
  (run f x0 x1 limits Observer.silent ()).result

def Error.message : Error ε Float → String
  | .nonFinitePoint value => "starting point is not finite: " ++ Decimal.text value
  | .degenerate iter x0 x1 fx0 fx1 _ =>
      s!"secant is degenerate at iteration {iter}: f(" ++ Decimal.text x0 ++ ") = " ++
        Decimal.text fx0 ++ " and f(" ++ Decimal.text x1 ++ ") = " ++ Decimal.text fx1 ++
        " are too close"
  | .nonFiniteValue x value _ =>
      "non-finite function value " ++ Decimal.text value ++ " at x = " ++ Decimal.text x
  | .model _ => "model call failed"

def Error.causes (describe : ε → String) (error : Error ε Float) : List String :=
  error.message :: match error with
    | .model cause => [describe cause]
    | .nonFinitePoint _ | .degenerate .. | .nonFiniteValue .. => []

end EquationSolver.Roots.Secant
