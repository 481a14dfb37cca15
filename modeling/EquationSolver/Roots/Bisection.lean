import EquationSolver.Decimal.Layout
import EquationSolver.Roots.Run

/-!
# Bisection

A continuous function with opposite signs at the ends of an interval has a zero inside. Each
iteration evaluates the midpoint and keeps the half whose ends still differ in sign. Half the width
bounds the error of the midpoint, so the run has converged once that is below the tolerance.

A midpoint is recorded and shown to the observer before anything is decided about it. Convergence
then counts before a stop, and a stop before a value that is not finite.
-/

namespace EquationSolver.Roots.Bisection

variable {ε σ α : Type}

structure Record (α : Type) where
  iter : Nat
  a : α
  b : α
  /-- The midpoint, which is the estimate of the root. -/
  c : α
  fc : α
  /-- Half the width of the interval. -/
  error : α
deriving Repr

instance : IterationRecord (Record α) α where
  iter := Record.iter
  error := Record.error

/-- Why two numbers bound no interval. -/
inductive BracketError
  | nonFinite
  | zeroWidth
deriving DecidableEq, Repr

/-- Why a run returned no estimate. -/
inductive Error (ε α : Type)
  | invalidBracket (cause : BracketError)
  | noSignChange (a b fa fb : α)
  | nonFiniteValue (x value : α) (trace : Array (Record α))
  | model (cause : ε)

/-- The iterations made before a failure, where the failure keeps them. -/
def Error.trace? : Error ε α → Option (Array (Record α))
  | .nonFiniteValue _ _ trace => some trace
  | .invalidBracket _ | .noSignChange .. | .model _ => none

/-- An interval, and the sign that the function had at its first left end. -/
structure Interval (α : Type) where
  a : α
  b : α
  signAtLeft : Sign

variable [Scalar α]

/-- Two numbers in order, if they are finite and differ. -/
def ordered (x y : α) : Except BracketError (α × α) :=
  if !(Scalar.isFinite x && Scalar.isFinite y) then .error .nonFinite
  else if Scalar.less x y then .ok (x, y)
  else if Scalar.less y x then .ok (y, x)
  else .error .zeroWidth

namespace Interval

/-- The interval between two ends, unless the function is positive at both or negative at both. -/
def ofEnds? (a b fa fb : α) : Option (Interval α) :=
  if Sign.of fa = Sign.of fb ∧ Sign.of fa ≠ .zero then none
  else some ⟨a, b, Sign.of fa⟩

def midpoint (interval : Interval α) : α :=
  (interval.a + interval.b) / Scalar.two

def halfWidth (interval : Interval α) : α :=
  Scalar.magnitude (interval.b - interval.a) / Scalar.two

/-- Moves the end at which the function has the sign it has at an inner point to that point. -/
def keepHalf (interval : Interval α) (c fc : α) : Interval α :=
  if Sign.of fc = interval.signAtLeft then { interval with a := c } else { interval with b := c }

end Interval

/-- Evaluates the ends of a bracket, the left one first. -/
def enter (f : Model ε α) (x y : α) : Except (Error ε α) (Interval α) :=
  match ordered x y with
  | .error cause => .error (.invalidBracket cause)
  | .ok (a, b) =>
      match f a with
      | .error cause => .error (.model cause)
      | .ok fa =>
          if !Scalar.isFinite fa then .error (.nonFiniteValue a fa #[])
          else
            match f b with
            | .error cause => .error (.model cause)
            | .ok fb =>
                if !Scalar.isFinite fb then .error (.nonFiniteValue b fb #[])
                else
                  match Interval.ofEnds? a b fa fb with
                  | none => .error (.noSignChange a b fa fb)
                  | some interval => .ok interval

/-- The record of an iteration on an interval. -/
def record (iter : Nat) (interval : Interval α) (fc : α) : Record α :=
  ⟨iter, interval.a, interval.b, interval.midpoint, fc, interval.halfWidth⟩

/-- Halves an interval, at most as often as iterations are left. -/
def iterate (f : Model ε α) (tolerance : α) (observe : Observer σ (Record α)) (start : Interval α) :
    Nat → Interval α → Array (Record α) → σ → Run (Interval α) (Record α) σ (Error ε α) α
  | 0, interval, trace, state =>
      let root := (trace.back?.map (·.c)).getD interval.midpoint
      ⟨some start, trace, state, .ok ⟨.maxIters, root, trace⟩⟩
  | left + 1, interval, trace, state =>
      match f interval.midpoint with
      | .error cause => ⟨some start, trace, state, .error (.model cause)⟩
      | .ok fc =>
          let made := record (trace.size + 1) interval fc
          let (state, directive) := observe state made
          let trace := trace.push made
          if Scalar.less made.error tolerance then
            ⟨some start, trace, state, .ok ⟨.converged, made.c, trace⟩⟩
          else if directive = .stopEarly then
            ⟨some start, trace, state, .ok ⟨.stoppedByObserver, made.c, trace⟩⟩
          else if !Scalar.isFinite fc then
            ⟨some start, trace, state, .error (.nonFiniteValue made.c fc trace)⟩
          else iterate f tolerance observe start left (interval.keepHalf made.c fc) trace state

/-- Seeks a root of a model between two numbers, under the eyes of an observer. -/
def run (f : Model ε α) (x y : α) (limits : Limits α) (observe : Observer σ (Record α)) (state : σ) :
    Run (Interval α) (Record α) σ (Error ε α) α :=
  match enter f x y with
  | .error error => ⟨none, #[], state, .error error⟩
  | .ok interval => iterate f limits.tolerance observe interval limits.maxIters interval #[] state

/-- Seeks a root of a model between two numbers. -/
def solve (f : Model ε α) (x y : α) (limits : Limits α) :
    Except (Error ε α) (Solution (Record α) α) :=
  (run f x y limits Observer.silent ()).result

def BracketError.message : BracketError → String
  | .nonFinite => "bracket endpoints must be finite"
  | .zeroWidth => "bracket endpoints must differ"

def Error.message : Error ε Float → String
  | .invalidBracket cause => "invalid bracket: " ++ cause.message
  | .noSignChange a b fa fb =>
      "no sign change in bracket: f(" ++ Decimal.text a ++ ") = " ++ Decimal.text fa ++
        ", f(" ++ Decimal.text b ++ ") = " ++ Decimal.text fb
  | .nonFiniteValue x value _ =>
      "non-finite function value " ++ Decimal.text value ++ " at x = " ++ Decimal.text x
  | .model _ => "model call failed"

def Error.causes (describe : ε → String) (error : Error ε Float) : List String :=
  error.message :: match error with
    | .invalidBracket cause => [cause.message]
    | .model cause => [describe cause]
    | .noSignChange .. | .nonFiniteValue .. => []

end EquationSolver.Roots.Bisection
