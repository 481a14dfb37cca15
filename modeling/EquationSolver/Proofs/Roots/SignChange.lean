import EquationSolver.Proofs.Floats.Value
import EquationSolver.Proofs.Roots.Method

/-!
# The sign change

Bisection never loses the sign change it starts from. Only the sign at the first left end is kept,
and each iteration moves an end to a point where the function has a value that fits it.
-/

namespace EquationSolver.Roots.Bisection

section Interval

variable {σ ε α : Type} [Scalar α]

/-- Finite values at the ends of an interval: the kept sign at the left end, and not at the right
one as well, unless the function is zero at the left. -/
structure HasSignChange (f : Model ε α) (interval : Interval α) (fa fb : α) : Prop where
  left_eq : f interval.a = .ok fa
  left_finite : Scalar.isFinite fa = true
  right_eq : f interval.b = .ok fb
  right_finite : Scalar.isFinite fb = true
  sign_left : Sign.of fa = interval.signAtLeft
  sign_right : Sign.of fb = interval.signAtLeft → interval.signAtLeft = .zero

variable {f : Model ε α} {interval : Interval α} {a b c fa fb fc : α}

private theorem hasSignChange_of_ofEnds? (ha : f a = .ok fa) (hfa : Scalar.isFinite fa = true)
    (hb : f b = .ok fb) (hfb : Scalar.isFinite fb = true)
    (h : Interval.ofEnds? a b fa fb = some interval) : HasSignChange f interval fa fb := by
  unfold Interval.ofEnds? at h
  split_ifs at h with hsame
  cases h
  exact ⟨ha, hfa, hb, hfb, rfl, fun hsign => by_contra fun hzero => hsame ⟨hsign.symm, hzero⟩⟩

private theorem HasSignChange.keepHalf (h : HasSignChange f interval fa fb) (hc : f c = .ok fc)
    (hfc : Scalar.isFinite fc = true) :
    ∃ fa fb, HasSignChange f (interval.keepHalf c fc) fa fb := by
  unfold Interval.keepHalf
  split_ifs with hsign
  · exact ⟨fc, fb, hc, hfc, h.right_eq, h.right_finite, hsign, h.sign_right⟩
  · exact ⟨fa, fc, h.left_eq, h.left_finite, hc, hfc, h.sign_left, fun hsame => absurd hsame hsign⟩

private theorem Interval.keepHalf_signAtLeft :
    (interval.keepHalf c fc).signAtLeft = interval.signAtLeft := by
  unfold Interval.keepHalf
  split_ifs <;> rfl

variable {tolerance : α} {observe : Observer σ (Record α)} {state : σ} {start : Interval α}
  {made : List (Record α)}

/-- While a run goes on, its interval has a sign change, and the sign at its left end stays. -/
theorem hasSignChange_after (hstart : HasSignChange f start fa fb)
    (h : (method f).Underway tolerance observe state start made) :
    ((method f).after start made).signAtLeft = start.signAtLeft ∧
      ∃ fa fb, HasSignChange f ((method f).after start made) fa fb := by
  induction h with
  | nil => exact ⟨rfl, fa, fb, hstart⟩
  | concat before next_eq undecided ih =>
    obtain ⟨hsign, fa, fb, hchange⟩ := ih
    obtain ⟨fc, hfc, rfl⟩ := method_next_eq_ok_iff.mp next_eq
    have hfinite := method_fault?_eq_none_iff.mp (Method.verdict_eq_none_iff.mp undecided).2.2
    rw [Method.after_concat]
    exact ⟨Interval.keepHalf_signAtLeft.trans hsign, hchange.keepHalf hfc hfinite⟩

end Interval

section Signs

open Floats

variable {v : Float}

theorem zero_not_less : Scalar.less (0 : Float) Scalar.zero = false := by decide

theorem sign_eq (hv : v.isFinite = true) :
    Sign.of v = if 0 < value v then .positive else if value v < 0 then .negative else .zero := by
  have hpositive : Scalar.less Scalar.zero v = decide (0 < value v) := by
    rw [decide_eq_decide.mpr (pos_iff_value_pos hv).symm]
    rfl
  have hnegative : Scalar.less v Scalar.zero = decide (value v < 0) := by
    rw [decide_eq_decide.mpr (neg_iff_value_neg hv).symm]
    rfl
  simp only [Sign.of, hpositive, hnegative, decide_eq_true_eq]

private theorem sign_eq_positive_iff (hv : v.isFinite = true) : Sign.of v = .positive ↔ 0 < value v := by
  rw [sign_eq hv]
  split_ifs with hpos hneg <;> simp [hpos]

private theorem sign_eq_negative_iff (hv : v.isFinite = true) : Sign.of v = .negative ↔ value v < 0 := by
  rw [sign_eq hv]
  split_ifs with hpos hneg
  · simp [hpos.le]
  · simp [hneg]
  · simp [hneg]

private theorem sign_eq_zero_iff (hv : v.isFinite = true) : Sign.of v = .zero ↔ value v = 0 := by
  rw [sign_eq hv]
  split_ifs with hpos hneg
  · simp [hpos.ne']
  · simp [hneg.ne]
  · simp [le_antisymm (not_lt.mp hpos) (not_lt.mp hneg)]

end Signs

open Floats

variable {σ ε : Type} {f : Model ε Float}

/-- What is known at the ends of a recorded interval from the value `first` at the first left end. -/
structure RecordedSigns (f : Model ε Float) (first : Float) (made : Record Float) (fa fb : Float) :
    Prop where
  left_eq : f made.a = .ok fa
  left_finite : fa.isFinite = true
  right_eq : f made.b = .ok fb
  right_finite : fb.isFinite = true
  of_zero : (first == 0) = true → (fa == 0) = true
  of_pos : 0 < first → 0 < fa ∧ fb ≤ 0
  of_neg : first < 0 → fa < 0 ∧ 0 ≤ fb
  zero_or_opposite : (fa == 0) = true ∨ (fb == 0) = true ∨ (fa < 0 ∧ 0 < fb) ∨ (0 < fa ∧ fb < 0)

private theorem HasSignChange.recordedSigns {interval : Interval Float} {first fa fb fc : Float}
    {iter : Nat} (h : HasSignChange f interval fa fb) (hfirst : first.isFinite = true)
    (hsign : interval.signAtLeft = Sign.of first) :
    RecordedSigns f first (record iter interval fc) fa fb := by
  have hfa : fa.isFinite = true := h.left_finite
  have hfb : fb.isFinite = true := h.right_finite
  have hleft : Sign.of fa = Sign.of first := h.sign_left.trans hsign
  have hright : Sign.of fb = Sign.of first → Sign.of first = .zero := by
    rw [← hsign]
    exact h.sign_right
  have hzero : value first = 0 → value fa = 0 := fun hvalue =>
    (sign_eq_zero_iff hfa).mp (hleft.trans ((sign_eq_zero_iff hfirst).mpr hvalue))
  have hpos : 0 < value first → 0 < value fa ∧ value fb ≤ 0 := by
    intro hvalue
    have hpositive := (sign_eq_positive_iff hfirst).mpr hvalue
    refine ⟨(sign_eq_positive_iff hfa).mp (hleft.trans hpositive), not_lt.mp fun hfb' => ?_⟩
    have hsame := (sign_eq_positive_iff hfb).mpr hfb'
    cases hpositive.symm.trans (hright (hsame.trans hpositive.symm))
  have hneg : value first < 0 → value fa < 0 ∧ 0 ≤ value fb := by
    intro hvalue
    have hnegative := (sign_eq_negative_iff hfirst).mpr hvalue
    refine ⟨(sign_eq_negative_iff hfa).mp (hleft.trans hnegative), not_lt.mp fun hfb' => ?_⟩
    have hsame := (sign_eq_negative_iff hfb).mpr hfb'
    cases hnegative.symm.trans (hright (hsame.trans hnegative.symm))
  exact {
    left_eq := h.left_eq
    left_finite := hfa
    right_eq := h.right_eq
    right_finite := hfb
    of_zero := by
      rw [eq_zero_iff_value_eq_zero hfirst, eq_zero_iff_value_eq_zero hfa]
      exact hzero
    of_pos := by
      rw [pos_iff_value_pos hfirst, pos_iff_value_pos hfa, nonpos_iff_value_nonpos hfb]
      exact hpos
    of_neg := by
      rw [neg_iff_value_neg hfirst, neg_iff_value_neg hfa, nonneg_iff_value_nonneg hfb]
      exact hneg
    zero_or_opposite := by
      rw [eq_zero_iff_value_eq_zero hfa, eq_zero_iff_value_eq_zero hfb, neg_iff_value_neg hfa,
        neg_iff_value_neg hfb, pos_iff_value_pos hfa, pos_iff_value_pos hfb]
      rcases lt_trichotomy (value first) 0 with hvalue | hvalue | hvalue
      · obtain ⟨hfa', hfb'⟩ := hneg hvalue
        rcases hfb'.eq_or_lt with hfb' | hfb'
        · exact .inr (.inl hfb'.symm)
        · exact .inr (.inr (.inl ⟨hfa', hfb'⟩))
      · exact .inl (hzero hvalue)
      · obtain ⟨hfa', hfb'⟩ := hpos hvalue
        rcases hfb'.eq_or_lt with hfb' | hfb'
        · exact .inr (.inl hfb')
        · exact .inr (.inr (.inr ⟨hfa', hfb'⟩)) }

/-- Bisection never loses the sign change. -/
theorem sign_change_kept (f : Model ε Float) (x y : Float) (limits : Limits Float)
    (observe : Observer σ (Record Float)) (state : σ) (start : Interval Float)
    (h : (run f x y limits observe state).start? = some start) :
    ordered x y = .ok (start.a, start.b) ∧ start.a < start.b ∧
      ∃ first, f start.a = .ok first ∧
        ∀ made ∈ (run f x y limits observe state).records,
          ∃ fa fb, RecordedSigns f first made fa fb := by
  rw [run_eq] at h ⊢
  cases henter : enter f x y with
  | error error =>
    rw [henter] at h
    cases h
  | ok interval =>
    obtain ⟨handed, result, hends, hrun⟩ := Method.ends_run (method f) interval limits observe state
    rw [henter, hrun] at h
    rw [hrun]
    cases h
    obtain ⟨a, b, first, fb, hordered, ⟨ha, hfirst⟩, ⟨hb, hfb⟩, hofEnds⟩ := of_enter_eq_ok henter
    have hchange := hasSignChange_of_ofEnds? ha hfirst hb hfb hofEnds
    obtain ⟨rfl, rfl, hsign⟩ := of_ofEnds?_eq_some hofEnds
    obtain ⟨⟨-, -, hless⟩, -⟩ := of_ordered_eq_ok hordered
    refine ⟨hordered, of_decide_eq_true hless, first, ha, ?_⟩
    intro made hmade
    obtain ⟨before, later, hhanded⟩ := List.append_of_mem (List.mem_toArray.mp hmade)
    obtain ⟨hunderway, hnext⟩ := hends.next_eq hhanded
    obtain ⟨hkept, fa', fb', hchange'⟩ := hasSignChange_after hchange hunderway
    obtain ⟨fc, -, rfl⟩ := method_next_eq_ok_iff.mp hnext
    exact ⟨fa', fb', hchange'.recordedSigns hfirst (hkept.trans hsign)⟩

def identity : Model Empty Float := .ok

def threeRounds : Limits Float := ⟨3, 0, by decide, finite_zero, zero_not_less⟩

/-- The first midpoint is the zero itself, which becomes the right end. -/
theorem sign_change_kept_past_zero :
    (run identity (-1) 1 threeRounds Observer.silent ()).start? = some ⟨-1, 1, .negative⟩ ∧
      (run identity (-1) 1 threeRounds Observer.silent ()).records =
        #[⟨1, -1, 1, 0, 0, 1⟩, ⟨2, -1, 0, -0.5, -0.5, 0.5⟩, ⟨3, -0.5, 0, -0.25, -0.25, 0.25⟩] ∧
      ∀ made ∈ (run identity (-1) 1 threeRounds Observer.silent ()).records,
        ∃ fa fb, RecordedSigns identity (-1) made fa fb := by
  have hstart : (run identity (-1) 1 threeRounds Observer.silent ()).start? =
      some ⟨-1, 1, .negative⟩ := by
    rfl
  obtain ⟨-, -, first, hfirst, hrecords⟩ := sign_change_kept _ _ _ _ _ _ _ hstart
  cases hfirst
  exact ⟨hstart, by rfl, hrecords⟩

end EquationSolver.Roots.Bisection
