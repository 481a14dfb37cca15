import EquationSolver.Proofs.Floats.Range
import EquationSolver.Proofs.Floats.Signs
import EquationSolver.Proofs.Roots.Inside
import EquationSolver.Proofs.Roots.SignChange

/-!
# Only signs matter

Bisection asks a model for its signs and uses nothing else of its values, so two models with the same
signs, or with opposite signs everywhere, lead it through the same points to the same end. Nor does it
matter in which order the ends of the bracket are given.
-/

namespace EquationSolver

def Sign.opposite : Sign → Sign
  | .negative => .positive
  | .zero => .zero
  | .positive => .negative

private theorem Sign.opposite_injective : Sign.opposite.Injective := by
  intro s t h
  cases s <;> cases t <;> first | rfl | cases h

namespace Roots.Bisection

variable {μ σ ε ε' α : Type} [Scalar α]

/-- Two answers that bisection cannot tell apart, where one sign stands for another: both models fail,
both values are not finite, or the signs correspond. -/
inductive SameAnswer (turn : Sign → Sign) : Except ε α → Except ε' α → Prop
  | failed (cause : ε) (cause' : ε') : SameAnswer turn (.error cause) (.error cause')
  | nonFinite {v w : α} (hv : Scalar.isFinite v = false) (hw : Scalar.isFinite w = false) :
      SameAnswer turn (.ok v) (.ok w)
  | finite {v w : α} (hv : Scalar.isFinite v = true) (hw : Scalar.isFinite w = true)
      (sign_eq : Sign.of w = turn (Sign.of v)) : SameAnswer turn (.ok v) (.ok w)

/-- Two models with corresponding signs at every point. -/
def SameSigns (turn : Sign → Sign) (f : Model ε α) (g : Model ε' α) : Prop :=
  ∀ x, SameAnswer turn (f x) (g x)

/-- All of a record but the value at the midpoint. -/
def Record.course (made : Record α) : Nat × α × α × α × α :=
  (made.iter, made.a, made.b, made.c, made.error)

/-- The same failure of two models, at the same point: that of the last call. -/
inductive SameFailure (f : Model ε α) (g : Model ε' α) : List α → Error ε α → Error ε' α → Prop
  | invalidBracket (cause : BracketError) :
      SameFailure f g [] (.invalidBracket cause) (.invalidBracket cause)
  | noSignChange {a b fa fb ga gb : α} (fa_eq : f a = .ok fa) (fb_eq : f b = .ok fb)
      (ga_eq : g a = .ok ga) (gb_eq : g b = .ok gb) :
      SameFailure f g [a, b] (.noSignChange a b fa fb) (.noSignChange a b ga gb)
  | nonFiniteValue {calls : List α} {x v w : α} {trace trace' : Array (Record α)} (fx_eq : f x = .ok v)
      (gx_eq : g x = .ok w) (course_eq : trace.map Record.course = trace'.map Record.course) :
      SameFailure f g (calls ++ [x]) (.nonFiniteValue x v trace) (.nonFiniteValue x w trace')
  | model {calls : List α} {x : α} {cause : ε} {cause' : ε'} (fx_eq : f x = .error cause)
      (gx_eq : g x = .error cause') : SameFailure f g (calls ++ [x]) (.model cause) (.model cause')

/-- The same end of two runs that called their models at some points. -/
inductive SameEnd (f : Model ε α) (g : Model ε' α) (calls : List α) :
    Except (Error ε α) (Solution (Record α) α) → Except (Error ε' α) (Solution (Record α) α) → Prop
  | estimate {status : Status} {root : α} {trace trace' : Array (Record α)}
      (course_eq : trace.map Record.course = trace'.map Record.course) :
      SameEnd f g calls (.ok ⟨status, root, trace⟩) (.ok ⟨status, root, trace'⟩)
  | failure {error : Error ε α} {error' : Error ε' α} (same : SameFailure f g calls error error') :
      SameEnd f g calls (.error error) (.error error')

section Lockstep

variable {turn : Sign → Sign} {f : Model ε α} {g : Model ε' α}

def Interval.turned (turn : Sign → Sign) (interval : Interval α) : Interval α :=
  { interval with signAtLeft := turn interval.signAtLeft }

private theorem Interval.keepHalf_turned (hturn : turn.Injective) (interval : Interval α) (c : α)
    {fc gc : α} (hsign : Sign.of gc = turn (Sign.of fc)) :
    (interval.turned turn).keepHalf c gc = (interval.keepHalf c fc).turned turn := by
  have hmoved : Sign.of gc = (interval.turned turn).signAtLeft ↔ Sign.of fc = interval.signAtLeft := by
    rw [hsign]
    exact hturn.eq_iff
  unfold Interval.keepHalf
  by_cases hleft : Sign.of fc = interval.signAtLeft
  · rw [if_pos hleft, if_pos (hmoved.mpr hleft)]
    rfl
  · rw [if_neg hleft, if_neg (mt hmoved.mp hleft)]
    rfl

private theorem Interval.ofEnds?_turned (hturn : turn.Injective) (hzero : turn .zero = .zero) (a b : α)
    {fa fb ga gb : α} (ha : Sign.of ga = turn (Sign.of fa)) (hb : Sign.of gb = turn (Sign.of fb)) :
    Interval.ofEnds? a b ga gb = (Interval.ofEnds? a b fa fb).map (Interval.turned turn) := by
  have hsame : Sign.of ga = Sign.of gb ∧ Sign.of ga ≠ .zero ↔
      Sign.of fa = Sign.of fb ∧ Sign.of fa ≠ .zero := by
    rw [ha, hb, hturn.eq_iff, ← hzero, hturn.ne_iff, hzero]
  unfold Interval.ofEnds?
  by_cases hrefused : Sign.of fa = Sign.of fb ∧ Sign.of fa ≠ .zero
  · rw [if_pos hrefused, if_pos (hsame.mpr hrefused)]
    rfl
  · rw [if_neg hrefused, if_neg (mt hsame.mp hrefused), ha]
    rfl

inductive SameEntry (turn : Sign → Sign) (f : Model ε α) (g : Model ε' α) (calls : List α) :
    Except (Error ε α) (Interval α) → Except (Error ε' α) (Interval α) → Prop
  | entered (interval : Interval α) : SameEntry turn f g calls (.ok interval) (.ok (interval.turned turn))
  | failure {error : Error ε α} {error' : Error ε' α} (same : SameFailure f g calls error error') :
      SameEntry turn f g calls (.error error) (.error error')

private theorem sameEntry (hturn : turn.Injective) (hzero : turn .zero = .zero) (h : SameSigns turn f g)
    (x y : α) :
    ∃ calls entered entered', SameEntry turn f g calls entered entered' ∧
      enterWith (Device.ofModel f).logged ((), []) x y = (((), calls), entered) ∧
      enterWith (Device.ofModel g).logged ((), []) x y = (((), calls), entered') := by
  unfold enterWith Device.logged Device.ofModel
  cases ordered x y with
  | error cause => exact ⟨[], _, _, .failure (.invalidBracket cause), rfl, rfl⟩
  | ok ends =>
    obtain ⟨a, b⟩ := ends
    have ha := h a
    generalize hfa : f a = answer at ha
    generalize hga : g a = answer' at ha
    cases ha with
    | failed cause cause' =>
      exact ⟨[] ++ [a], _, _, .failure (.model hfa hga), by simp only [hfa], by simp only [hga]⟩
    | nonFinite hv hw =>
      refine ⟨[] ++ [a], .error (.nonFiniteValue a _ #[]), .error (.nonFiniteValue a _ #[]),
        .failure (.nonFiniteValue hfa hga rfl), ?_, ?_⟩
      · simp only [hfa, hv, Bool.not_false, if_true]
      · simp only [hga, hw, Bool.not_false, if_true]
    | finite hfinite hfinite' hsign =>
      have hb := h b
      generalize hfb : f b = answer at hb
      generalize hgb : g b = answer' at hb
      simp only [hfa, hga, hfb, hgb, hfinite, hfinite', Bool.not_true, Bool.false_eq_true, if_false]
      cases hb with
      | failed cause cause' =>
        exact ⟨[] ++ [a] ++ [b], _, _, .failure (.model hfb hgb), rfl, rfl⟩
      | nonFinite hv hw =>
        refine ⟨[] ++ [a] ++ [b], .error (.nonFiniteValue b _ #[]), .error (.nonFiniteValue b _ #[]),
          .failure (.nonFiniteValue hfb hgb rfl), ?_, ?_⟩
        · simp only [hv, Bool.not_false, if_true]
        · simp only [hw, Bool.not_false, if_true]
      | finite hv hw hsign' =>
        simp only [hv, hw, Bool.not_true, Bool.false_eq_true, if_false,
          Interval.ofEnds?_turned hturn hzero a b hsign hsign']
        cases Interval.ofEnds? a b _ _ with
        | none => exact ⟨[a, b], _, _, .failure (.noSignChange hfa hfb hga hgb), rfl, rfl⟩
        | some interval => exact ⟨[a, b], _, _, .entered interval, rfl, rfl⟩

/-- What two runs have in common, each with the points at which it called its model. -/
structure InLockstep (f : Model ε α) (g : Model ε' α)
    (run : (Unit × List α) × Run (Interval α) (Record α) σ (Error ε α) α)
    (run' : (Unit × List α) × Run (Interval α) (Record α) σ (Error ε' α) α) : Prop where
  calls_eq : run.1.2 = run'.1.2
  course_eq : run.2.records.map Record.course = run'.2.records.map Record.course
  same_end : SameEnd f g run.1.2 run.2.result run'.2.result

omit [Scalar α] in
private theorem c_of_course_eq {trace trace' : Array (Record α)}
    (h : trace.map Record.course = trace'.map Record.course) :
    trace.back?.map Record.c = trace'.back?.map Record.c := by
  have hback := congrArg (fun courses => courses.back?.map fun course => course.2.2.2.1) h
  simpa [Array.back?_map, Function.comp_def, Record.course] using hback

private theorem iterateWith_succ {fc : α} (tolerance : α) (start interval : Interval α) (left : Nat)
    (trace : Array (Record α)) (calls : List α) (hf : f interval.midpoint = .ok fc) :
    iterateWith (Device.ofModel f).logged tolerance Observer.silent start (left + 1) interval trace ()
        ((), calls) =
      let memory := ((), calls ++ [interval.midpoint])
      let after := trace.push (record (trace.size + 1) interval fc)
      if Scalar.less interval.halfWidth tolerance then
        (memory, ⟨some start, after, (), .ok ⟨.converged, interval.midpoint, after⟩⟩)
      else if !Scalar.isFinite fc then
        (memory, ⟨some start, after, (), .error (.nonFiniteValue interval.midpoint fc after)⟩)
      else
        iterateWith (Device.ofModel f).logged tolerance Observer.silent start left
          (interval.keepHalf interval.midpoint fc) after () memory := by
  simp only [iterateWith, Device.logged, Device.ofModel, hf, Observer.silent, reduceCtorEq, if_false]
  rfl

/-- One after the other, the two runs make the same calls and records. -/
theorem inLockstep (hturn : turn.Injective) (h : SameSigns turn f g) (tolerance : α)
    (start start' interval : Interval α) (left : Nat) {trace trace' : Array (Record α)}
    (calls : List α) (hcourse : trace.map Record.course = trace'.map Record.course) :
    InLockstep f g
      (iterateWith (Device.ofModel f).logged tolerance Observer.silent start left interval trace ()
        ((), calls))
      (iterateWith (Device.ofModel g).logged tolerance Observer.silent start' left (interval.turned turn)
        trace' () ((), calls)) := by
  induction left generalizing interval trace trace' calls with
  | zero =>
    refine ⟨rfl, hcourse, ?_⟩
    simp only [iterateWith]
    rw [c_of_course_eq hcourse]
    exact .estimate hcourse
  | succ left ih =>
    -- Whatever the values, records on corresponding intervals have the same course.
    have hpush : ∀ fc gc, (trace.push (record (trace.size + 1) interval fc)).map Record.course =
        (trace'.push (record (trace'.size + 1) (interval.turned turn) gc)).map Record.course := by
      intro fc gc
      have hsize : trace.size = trace'.size := by
        rw [← Array.size_map (f := Record.course), hcourse, Array.size_map]
      rw [Array.map_push, Array.map_push, hcourse, hsize]
      rfl
    have hmid := h interval.midpoint
    generalize hf : f interval.midpoint = answer at hmid
    generalize hg : g interval.midpoint = answer' at hmid
    have hg' : g (interval.turned turn).midpoint = answer' := hg
    cases hmid with
    | failed cause cause' =>
      simp only [iterateWith, Device.logged, Device.ofModel, hf, hg']
      exact ⟨rfl, hcourse, .failure (.model hf hg)⟩
    | @nonFinite v w hv hw =>
      rw [iterateWith_succ _ _ _ _ _ _ hf, iterateWith_succ _ _ _ _ _ _ hg']
      simp only [hv, hw, Bool.not_false, if_true]
      by_cases hless : Scalar.less interval.halfWidth tolerance = true
      · rw [if_pos hless, if_pos (by exact hless)]
        exact ⟨rfl, hpush v w, .estimate (hpush v w)⟩
      · rw [if_neg hless, if_neg (by exact hless)]
        exact ⟨rfl, hpush v w, .failure (.nonFiniteValue hf hg (hpush v w))⟩
    | @finite v w hv hw hsign =>
      rw [iterateWith_succ _ _ _ _ _ _ hf, iterateWith_succ _ _ _ _ _ _ hg']
      simp only [hv, hw, Bool.not_true, Bool.false_eq_true, if_false,
        Interval.keepHalf_turned hturn _ _ hsign]
      by_cases hless : Scalar.less interval.halfWidth tolerance = true
      · rw [if_pos hless, if_pos (by exact hless)]
        exact ⟨rfl, hpush v w, .estimate (hpush v w)⟩
      · rw [if_neg hless, if_neg (by exact hless)]
        exact ih _ _ (hpush v w)

private theorem inLockstep_runWith (hturn : turn.Injective) (hzero : turn .zero = .zero)
    (h : SameSigns turn f g) (x y : α) (limits : Limits α) :
    InLockstep f g (runWith (Device.ofModel f).logged ((), []) x y limits Observer.silent ())
      (runWith (Device.ofModel g).logged ((), []) x y limits Observer.silent ()) := by
  obtain ⟨calls, entered, entered', hentry, hf, hg⟩ := sameEntry hturn hzero h x y
  unfold runWith
  rw [hf, hg]
  cases hentry with
  | entered interval => exact inLockstep hturn h _ _ _ _ _ _ rfl
  | failure same => exact ⟨rfl, rfl, .failure same⟩

end Lockstep

section Floats

variable {f : Model ε Float} {g : Model ε' Float}

/-- The runs of two models with nobody watching: the models are called at the same points, the records
differ in the values of the models only, and the runs end alike. -/
structure SameCourse (f : Model ε Float) (g : Model ε' Float) (x y : Float) (limits : Limits Float) :
    Prop where
  calls_eq : calls (.ofModel f) () x y limits Observer.silent () =
    calls (.ofModel g) () x y limits Observer.silent ()
  course_eq : (run f x y limits Observer.silent ()).records.map Record.course =
    (run g x y limits Observer.silent ()).records.map Record.course
  same_end : SameEnd f g (calls (.ofModel f) () x y limits Observer.silent ()) (solve f x y limits)
    (solve g x y limits)

private theorem sameCourse {turn : Sign → Sign} (hturn : turn.Injective) (hzero : turn .zero = .zero)
    (h : SameSigns turn f g) (x y : Float) (limits : Limits Float) : SameCourse f g x y limits := by
  have hlockstep := inLockstep_runWith hturn hzero h x y limits
  obtain ⟨hcalls, hcourse, hend⟩ := hlockstep
  rw [runWith_logged, runWith_logged, runWith_ofModel, runWith_ofModel] at hcourse hend
  exact ⟨hcalls, hcourse, hend⟩

private theorem ordered_comm (x y : Float) : ordered x y = ordered y x := by
  have hfinite : (Scalar.isFinite x && Scalar.isFinite y) = (Scalar.isFinite y && Scalar.isFinite x) :=
    Bool.and_comm ..
  unfold ordered
  rw [hfinite]
  split_ifs with h hxy hyx hyx
  · rfl
  · exact absurd (of_decide_eq_true hyx) (Floats.not_lt_of_lt (of_decide_eq_true hxy))
  · rfl
  · rfl
  · rfl

def negated (f : Model ε Float) : Model ε Float :=
  fun x => (f x).map fun v => -v

private theorem sameSigns_negated (f : Model ε Float) : SameSigns Sign.opposite f (negated f) := by
  intro x
  unfold negated
  cases f x with
  | error cause => exact .failed cause cause
  | ok v =>
    cases hv : v.isFinite with
    | false =>
      have hneg : (-v).isFinite = false := by
        rw [← Bool.not_eq_true] at hv ⊢
        exact mt Floats.isFinite_of_neg hv
      exact .nonFinite hv hneg
    | true =>
      refine .finite hv (Floats.isFinite_neg hv) ?_
      rw [sign_eq hv, sign_eq (Floats.isFinite_neg hv), Floats.value_neg hv]
      rcases lt_trichotomy (Floats.value v) 0 with hlt | heq | hgt
      · simp [hlt, hlt.not_gt, Sign.opposite]
      · simp [heq, Sign.opposite]
      · simp [hgt, hgt.not_gt, Sign.opposite]

end Floats

/-- Bisection depends on a model only through its signs, where opposite signs everywhere are as good as
the same, and on the ends of a bracket not through their order, also if the model has a memory. -/
theorem signs_determine_course :
    (∀ (f : Model ε Float) (g : Model ε' Float) (x y : Float) (limits : Limits Float),
      SameSigns id f g ∨ SameSigns Sign.opposite f g → SameCourse f g x y limits) ∧
    (∀ (f : Model ε Float) (x y : Float) (limits : Limits Float),
      solve f x y limits = solve f y x limits) ∧
    ∀ (device : Device μ ε Float) (memory : μ) (x y : Float) (limits : Limits Float)
        (observe : Observer σ (Record Float)) (state : σ),
      runWith device memory x y limits observe state = runWith device memory y x limits observe state := by
  refine ⟨?_, ?_, ?_⟩
  · rintro f g x y limits (h | h)
    · exact sameCourse Function.injective_id rfl h x y limits
    · exact sameCourse Sign.opposite_injective rfl h x y limits
  · intro f x y limits
    rw [solve, solve, run, run, enter, enter, ordered_comm]
  · intro device memory x y limits observe state
    rw [runWith, runWith, enterWith, enterWith, ordered_comm]

def pole : Model Empty Float :=
  fun x => .ok (1 / (x * x * x))

/-- A function and its opposite come to the pole with the same record, and fail at the same point. -/
theorem signs_determine_course_at_pole :
    (SameSigns id pole (negated pole) ∨ SameSigns Sign.opposite pole (negated pole)) ∧
      SameCourse pole (negated pole) (-2) 2 .standard ∧
      (run (negated pole) (-2) 2 .standard Observer.silent ()).records.map Record.course =
        #[(1, -2, 2, 0, 2)] := by
  have hsigns : SameSigns id pole (negated pole) ∨ SameSigns Sign.opposite pole (negated pole) :=
    .inr (sameSigns_negated pole)
  have hcourse : SameCourse pole (negated pole) (-2) 2 .standard :=
    (signs_determine_course (μ := Unit) (σ := Unit)).1 _ _ _ _ _ hsigns
  refine ⟨hsigns, hcourse, ?_⟩
  rw [← hcourse.course_eq]
  decide +kernel

end Roots.Bisection

end EquationSolver
