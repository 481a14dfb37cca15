import EquationSolver.Proofs.Roots.Inside
import EquationSolver.Proofs.Roots.SignChange

/-!
# Out of the bracket

A model that always answers with the same sign draws the interval towards one end. If the double of
that end is infinite, the midpoints come closer to it without end, or one of them is not finite; and
there are only finitely many floats. So the doubles of the ends must be finite for every run to stay
inside.
-/

namespace EquationSolver.Roots.Bisection

open Floats

/-- A model that is negative at its first call, positive at its second, and then always gives the same
answer. -/
def steering (answer : Float) : Device Nat Empty Float :=
  fun calls _ => (calls + 1, .ok (if calls = 0 then -1 else if calls = 1 then 1 else answer))

def narrowed (answer : Float) (interval : Interval Float) : Nat → Interval Float
  | 0 => interval
  | n + 1 =>
      (narrowed answer interval n).keepHalf (narrowed answer interval n).midpoint answer

def exactly (n : Nat) : Limits Float :=
  ⟨n + 1, 0, Nat.succ_pos n, finite_zero, zero_not_less⟩

variable {lo hi answer : Float}

private theorem steering_of_two_le {calls : Nat} (h : 2 ≤ calls) (x : Float) :
    steering answer calls x = (calls + 1, .ok answer) := by
  have h0 : calls ≠ 0 := by omega
  have h1 : calls ≠ 1 := by omega
  simp [steering, h0, h1]

private theorem sign_neg_one : Sign.of (-1 : Float) = .negative := by decide

private theorem sign_one : Sign.of (1 : Float) = .positive := by decide

private theorem enterWith_steering (hordered : ordered lo hi = .ok (lo, hi)) :
    enterWith (steering answer) 0 lo hi = (2, .ok ⟨lo, hi, .negative⟩) := by
  have hfirst : Scalar.isFinite (-1 : Float) = true := by decide
  have hsecond : Scalar.isFinite (1 : Float) = true := by decide
  simp [enterWith, hordered, steering, hfirst, hsecond, Interval.ofEnds?, sign_neg_one, sign_one]

section Reaches

variable {start : Interval Float} {trace : Array (Record Float)} {n : Nat}

def Reaches (answer : Float) (start : Interval Float) (n : Nat) (trace : Array (Record Float)) :
    Prop :=
  ∀ left, iterateWith (steering answer) 0 Observer.silent start (n + left) start #[] () 2 =
    iterateWith (steering answer) 0 Observer.silent start left (narrowed answer start n) trace ()
      (n + 2)

private theorem reaches_zero : Reaches answer start 0 #[] := by
  intro left
  rw [Nat.zero_add]
  rfl

private theorem Reaches.succ (h : Reaches answer start n trace) (hanswer : answer.isFinite = true)
    (herror : (narrowed answer start n).halfWidth.isFinite = true) :
    Reaches answer start (n + 1)
      (trace.push (record (trace.size + 1) (narrowed answer start n) answer)) := by
  intro left
  have hnonneg : 0 ≤ value (narrowed answer start n).halfWidth := half_abs_nonneg herror
  have hless : Scalar.less (narrowed answer start n).halfWidth 0 = false := by
    apply decide_eq_false
    rw [neg_iff_value_neg herror]
    exact not_lt.mpr hnonneg
  have hfinite : Scalar.isFinite answer = true := hanswer
  rw [Nat.add_assoc, Nat.add_comm 1, h]
  simp only [iterateWith, steering_of_two_le (Nat.le_add_left 2 n), record, hless, hfinite,
    Observer.silent, narrowed]
  rfl

private theorem mem_records_iterateWith {interval : Interval Float} {calls : Nat} (hcalls : 2 ≤ calls) :
    record (trace.size + 1) interval answer ∈
      (iterateWith (steering answer) 0 Observer.silent start 1 interval trace () calls).2.records := by
  simp only [iterateWith, steering_of_two_le hcalls]
  split
  · simp
  split
  · simp
  split
  · simp
  · simp

private theorem Reaches.within (h : Reaches answer ⟨lo, hi, .negative⟩ n trace)
    (hordered : ordered lo hi = .ok (lo, hi))
    (hinside : Inside lo hi (calls (steering answer) 0 lo hi (exactly n) Observer.silent ())
      (runWith (steering answer) 0 lo hi (exactly n) Observer.silent ()).2) :
    Within lo hi (record (trace.size + 1) (narrowed answer ⟨lo, hi, .negative⟩ n) answer) := by
  apply hinside.within
  simp only [runWith, enterWith_steering hordered, exactly]
  rw [h 1]
  exact mem_records_iterateWith (Nat.le_add_left 2 n)

end Reaches

section Endless

variable (hordered : ordered lo hi = .ok (lo, hi)) (hanswer : answer.isFinite = true)
  (hinside : ∀ n, Inside lo hi (calls (steering answer) 0 lo hi (exactly n) Observer.silent ())
    (runWith (steering answer) 0 lo hi (exactly n) Observer.silent ()).2)
include hordered hanswer hinside

/-- If all runs stay inside, the halvings go on without end. -/
theorem exists_reaches (n : Nat) : ∃ trace, Reaches answer ⟨lo, hi, .negative⟩ n trace := by
  induction n with
  | zero => exact ⟨_, reaches_zero⟩
  | succ n ih =>
    obtain ⟨trace, hreaches⟩ := ih
    exact ⟨_, hreaches.succ hanswer (hreaches.within hordered (hinside n)).error_finite⟩

private theorem finite_narrowed (n : Nat) :
    (narrowed answer ⟨lo, hi, .negative⟩ n).a.isFinite = true ∧
      (narrowed answer ⟨lo, hi, .negative⟩ n).b.isFinite = true ∧
      (narrowed answer ⟨lo, hi, .negative⟩ n).midpoint.isFinite = true := by
  obtain ⟨trace, hreaches⟩ := exists_reaches hordered hanswer hinside n
  have hmade := hreaches.within hordered (hinside n)
  exact ⟨hmade.a_finite, hmade.b_finite, hmade.c_finite⟩

end Endless

private theorem finite_float : Finite Float :=
  Finite.of_injective Float.toBits fun _ _ => Float.toBits_inj.mp

/-- There is no endless sequence of floats that stand for different numbers. -/
theorem not_injective_value (x : Nat → Float) : ¬ Function.Injective (value ∘ x) := by
  intro hinjective
  have := finite_float
  exact not_injective_infinite_finite x hinjective.of_comp

private theorem narrowed_neg_one (lo hi : Float) (n : Nat) :
    (narrowed (-1) ⟨lo, hi, .negative⟩ n).b = hi ∧
      (narrowed (-1) ⟨lo, hi, .negative⟩ n).signAtLeft = .negative ∧
      (narrowed (-1) ⟨lo, hi, .negative⟩ (n + 1)).a =
        (narrowed (-1) ⟨lo, hi, .negative⟩ n).midpoint := by
  induction n with
  | zero => simp [narrowed, Interval.keepHalf, sign_neg_one]
  | succ n ih =>
    obtain ⟨hb, hsign, -⟩ := ih
    simp [narrowed, Interval.keepHalf, sign_neg_one, hb, hsign]

private theorem narrowed_one (lo hi : Float) (n : Nat) :
    (narrowed 1 ⟨lo, hi, .negative⟩ n).a = lo ∧
      (narrowed 1 ⟨lo, hi, .negative⟩ n).signAtLeft = .negative ∧
      (narrowed 1 ⟨lo, hi, .negative⟩ (n + 1)).b =
        (narrowed 1 ⟨lo, hi, .negative⟩ n).midpoint := by
  induction n with
  | zero => simp [narrowed, Interval.keepHalf, sign_one]
  | succ n ih =>
    obtain ⟨ha, hsign, -⟩ := ih
    simp [narrowed, Interval.keepHalf, sign_one, ha, hsign]

section

variable (hordered : ordered lo hi = .ok (lo, hi))
include hordered

private theorem value_lt_of_inside
    (hinside : ∀ n, Inside lo hi (calls (steering (-1)) 0 lo hi (exactly n) Observer.silent ())
      (runWith (steering (-1)) 0 lo hi (exactly n) Observer.silent ()).2) :
    value hi < 2 ^ (1023 : ℤ) := by
  by_contra hlarge
  apply not_injective_value fun n => (narrowed (-1) ⟨lo, hi, .negative⟩ n).a
  apply StrictMono.injective
  apply strictMono_nat_of_lt_succ
  intro n
  obtain ⟨ha, hb, hmid⟩ := finite_narrowed hordered (by decide) hinside n
  obtain ⟨hsame, -, hnext⟩ := narrowed_neg_one lo hi n
  rw [Function.comp_apply, Function.comp_apply, hnext]
  apply lt_midpoint ha hb hmid
  rw [hsame]
  exact not_lt.mp hlarge

private theorem lt_value_of_inside
    (hinside : ∀ n, Inside lo hi (calls (steering 1) 0 lo hi (exactly n) Observer.silent ())
      (runWith (steering 1) 0 lo hi (exactly n) Observer.silent ()).2) :
    -2 ^ (1023 : ℤ) < value lo := by
  by_contra hlarge
  apply not_injective_value fun n => (narrowed 1 ⟨lo, hi, .negative⟩ n).b
  apply StrictAnti.injective
  apply strictAnti_nat_of_succ_lt
  intro n
  obtain ⟨ha, hb, hmid⟩ := finite_narrowed hordered (by decide) hinside n
  obtain ⟨hsame, -, hnext⟩ := narrowed_one lo hi n
  rw [Function.comp_apply, Function.comp_apply, hnext]
  apply midpoint_lt ha hb hmid
  rw [hsame]
  exact not_lt.mp hlarge

end

private theorem ordered_eq {x y : Float} (hlo : lo.isFinite = true) (hhi : hi.isFinite = true)
    (hlt : lo < hi) (h : (x = lo ∧ y = hi) ∨ (x = hi ∧ y = lo)) : ordered x y = .ok (lo, hi) := by
  have hless : Scalar.less lo hi = true := decide_eq_true hlt
  have hgreater : Scalar.less hi lo = false := by
    apply decide_eq_false
    rw [lt_iff_value_lt hhi hlo]
    exact ((lt_iff_value_lt hlo hhi).mp hlt).not_gt
  have hlo' : Scalar.isFinite lo = true := hlo
  have hhi' : Scalar.isFinite hi = true := hhi
  rcases h with ⟨rfl, rfl⟩ | ⟨rfl, rfl⟩
  · simp [ordered, hless, hlo', hhi']
  · simp [ordered, hless, hgreater, hlo', hhi']

/-- Every run stays inside its bracket, whatever its model, its limits and its observer, exactly if
the doubles of the two ends are finite. The runs are those of `run` where the model is a function. -/
theorem inside_iff_doubles_finite (hlo : lo.isFinite = true) (hhi : hi.isFinite = true)
    (hlt : lo < hi) :
    ((∀ {μ σ ε : Type} (device : Device μ ε Float) (memory : μ) (x y : Float)
        (limits : Limits Float) (observe : Observer σ (Record Float)) (state : σ),
      (x = lo ∧ y = hi) ∨ (x = hi ∧ y = lo) →
        Inside lo hi (calls device memory x y limits observe state)
          (runWith device memory x y limits observe state).2) ↔
      (lo + lo).isFinite = true ∧ (hi + hi).isFinite = true) ∧
    ∀ {σ ε : Type} (f : Model ε Float) (x y : Float) (limits : Limits Float)
      (observe : Observer σ (Record Float)) (state : σ),
      (runWith (.ofModel f) () x y limits observe state).2 = run f x y limits observe state := by
  refine ⟨?_, fun f x y limits observe state => by rw [runWith_ofModel]⟩
  rw [isFinite_double_iff hlo, isFinite_double_iff hhi]
  constructor
  · intro h
    have hordered := ordered_eq hlo hhi hlt (.inl ⟨rfl, rfl⟩)
    have hhigh := value_lt_of_inside hordered fun n =>
      h (steering (-1)) 0 lo hi (exactly n) Observer.silent () (.inl ⟨rfl, rfl⟩)
    have hlow := lt_value_of_inside hordered fun n =>
      h (steering 1) 0 lo hi (exactly n) Observer.silent () (.inl ⟨rfl, rfl⟩)
    have hvalue := (lt_iff_value_lt hlo hhi).mp hlt
    exact ⟨abs_lt.mpr ⟨hlow, hvalue.trans hhigh⟩, abs_lt.mpr ⟨hlow.trans hvalue, hhigh⟩⟩
  · rintro ⟨hlo', hhi'⟩ μ σ ε device memory x y limits observe state hends
    exact inside_runWith hlo' hhi' hlo hhi hlt (ordered_eq hlo hhi hlt hends) device memory limits
      observe state

/-- A bracket that reaches just short of the greatest binade on both sides. -/
theorem inside_far_apart :
    ((-8.9e307 : Float).isFinite = true ∧ (8.9e307 : Float).isFinite = true ∧
      (-8.9e307 : Float) < 8.9e307) ∧
    ∀ {σ ε : Type} (f : Model ε Float) (limits : Limits Float)
      (observe : Observer σ (Record Float)) (state : σ),
      Inside (-8.9e307) 8.9e307 (calls (.ofModel f) () 8.9e307 (-8.9e307) limits observe state)
        (run f 8.9e307 (-8.9e307) limits observe state) := by
  have hends : (-8.9e307 : Float).isFinite = true ∧ (8.9e307 : Float).isFinite = true ∧
      (-8.9e307 : Float) < 8.9e307 := by decide +kernel
  have hdoubles : (-8.9e307 + -8.9e307 : Float).isFinite = true ∧
      (8.9e307 + 8.9e307 : Float).isFinite = true := by decide +kernel
  obtain ⟨hiff, hrun⟩ := inside_iff_doubles_finite hends.1 hends.2.1 hends.2.2
  refine ⟨hends, fun f limits observe state => ?_⟩
  rw [← hrun]
  exact hiff.mpr hdoubles (.ofModel f) () _ _ limits observe state (.inr ⟨rfl, rfl⟩)

def falling : Model Empty Float :=
  fun x => .ok (1e308 / x - 1)

def coarse : Limits Float :=
  ⟨100, 1e308, by decide, by decide +kernel, by decide +kernel⟩

/-- The first midpoint of a bracket in the greatest binade is infinite, and may be returned. -/
theorem root_outside_bracket :
    ((8.98846567431158e307 : Float).isFinite = true ∧
      (1.348269851146737e308 : Float).isFinite = true ∧
      (8.98846567431158e307 : Float) < 1.348269851146737e308) ∧
    (∃ solution,
      (run falling 8.98846567431158e307 1.348269851146737e308 coarse Observer.silent ()).result =
          .ok solution ∧
        solution.status = .converged ∧ solution.root = 1 / 0) ∧
    ¬ Inside 8.98846567431158e307 1.348269851146737e308
      (calls (.ofModel falling) () 8.98846567431158e307 1.348269851146737e308 coarse
        Observer.silent ())
      (runWith (.ofModel falling) () 8.98846567431158e307 1.348269851146737e308 coarse
        Observer.silent ()).2 := by
  have hcheck :
      ((run falling 8.98846567431158e307 1.348269851146737e308 coarse
        Observer.silent ()).result.toOption.any fun solution =>
          solution.status = .converged ∧ solution.root = 1 / 0) = true := by decide +kernel
  rw [runWith_ofModel]
  refine ⟨by decide +kernel, ?_⟩
  cases hresult : (run falling 8.98846567431158e307 1.348269851146737e308 coarse
      Observer.silent ()).result with
  | error error =>
    rw [hresult] at hcheck
    cases hcheck
  | ok solution =>
    rw [hresult] at hcheck
    obtain ⟨hstatus, hroot⟩ := of_decide_eq_true hcheck
    refine ⟨⟨solution, rfl, hstatus, hroot⟩, fun hinside => ?_⟩
    have hle := (hinside.root solution hresult).2
    rw [hroot] at hle
    revert hle
    decide +kernel

end EquationSolver.Roots.Bisection
