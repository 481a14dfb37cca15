import EquationSolver.Proofs.Decimal.Nearest
import EquationSolver.Proofs.Decimal.ReadBack
import EquationSolver.Proofs.Floats.Arithmetic

/-!
# Correct rounding

Reading a decimal loses no more than it must. The float that is read is the nearest of all to the number
that the decimal stands for, and of two that are as near the one whose last bit is zero. From half a unit
above the greatest float on it is infinity.
-/

namespace EquationSolver.Decimal

open Float.Model Float.Model.UnpackedFloat Floats

variable {q v : ℚ} {t : ℤ} {below : Nat} {accuracy : Accuracy} {u : UnpackedFloat}

/-- The least number that is rounded to infinity, half a unit above the greatest float. -/
def overflow : ℚ :=
  2 ^ (1024 : ℤ) - 2 ^ (970 : ℤ)

/-- Whether no finite float is nearer to a number, and only one with another last bit as near. -/
structure Closest (q : ℚ) (x : Float) : Prop where
  unsigned : Unsigned x
  nearest : ∀ y : Float, y.isFinite = true → |value x - q| ≤ |value y - q|
  tie_even : ∀ y : Float, y.isFinite = true → |value y - q| = |value x - q| →
    value y = value x ∨ x.toBits.toNat % 2 = 0

/-- Whether a float is what a number that is not negative is rounded to, to the nearest and to even. -/
structure CorrectlyRounded (q : ℚ) (x : Float) : Prop where
  closest : q < overflow → Closest q x
  infinite : overflow ≤ q → x = 1.0 / 0.0

/-! ## The grid of a number -/

private theorem Approximates.nearest (h : Approximates below accuracy q) :
    Nearest (accuracy.roundToNearestEven below) q := by
  rcases accuracy with _ | (_ | _ | _)
  · simp only [Approximates] at h
    simp only [Accuracy.roundToNearestEven]
    constructor <;> intros <;> linarith
  · obtain ⟨hlow, hhigh⟩ := h
    simp only [Accuracy.roundToNearestEven]
    constructor <;> intros <;> linarith
  · simp only [Approximates] at h
    rcases Nat.mod_two_eq_zero_or_one below with heven | hodd
    · simp only [Accuracy.roundToNearestEven, heven, Nat.add_zero]
      constructor <;> intros
      · linarith
      · linarith
      · omega
      · omega
    · have hmod : (below + 1) % 2 ≠ 1 := by omega
      simp only [Accuracy.roundToNearestEven, hodd]
      constructor
      · push_cast
        linarith
      · push_cast
        linarith
      · exact fun h => absurd h hmod
      · exact fun h => absurd h hmod
  · obtain ⟨hlow, hhigh⟩ := h
    simp only [Accuracy.roundToNearestEven]
    constructor <;> intros <;> push_cast <;> linarith

/-- No representable number is nearer to a number than what it is rounded to, and only one with another
last bit is as near. -/
theorem abs_sub_le_of_placed {R : Nat} (h : Placed q t below accuracy)
    (hR : accuracy.roundToNearestEven below = R) {p : ℚ} (hp : Representable p) :
    |R * 2 ^ t - q| ≤ |p - q| ∧ (|p - q| = |R * 2 ^ t - q| → p = R * 2 ^ t ∨ R % 2 = 0) := by
  have hunit : (0 : ℚ) < 2 ^ t := by positivity
  obtain ⟨hbelow, habove⟩ := h.bounds
  obtain ⟨hlow, hhigh, hlow', hhigh'⟩ := hR ▸ h.approximates.nearest
  rw [le_div_iff₀ hunit] at hlow
  rw [div_le_iff₀ hunit] at hhigh
  rw [lt_div_iff₀ hunit] at hlow'
  rw [div_lt_iff₀ hunit] at hhigh'
  have hsides : R = below ∨ R = below + 1 := by
    have := roundToNearestEven_bounds below accuracy
    omega
  have hparity := Nat.mod_two_eq_zero_or_one R
  rcases hsides with rfl | rfl
  · rw [abs_of_nonpos (by linarith : (R : ℚ) * 2 ^ t - q ≤ 0)]
    rcases h.le_or_ge hp with hp | hp
    · rw [abs_of_nonpos (by linarith)]
      exact ⟨by linarith, fun heq => .inl (by linarith)⟩
    · rw [abs_of_nonneg (by linarith)]
      refine ⟨by linarith, fun heq => .inr (hparity.resolve_right fun hodd => ?_)⟩
      linarith [hhigh' hodd]
  · push_cast at hlow hhigh hlow' hhigh' ⊢
    rw [abs_of_nonneg (by linarith : 0 ≤ ((below : ℚ) + 1) * 2 ^ t - q)]
    rcases h.le_or_ge hp with hp | hp
    · rw [abs_of_nonpos (by linarith)]
      refine ⟨by linarith, fun heq => .inr (hparity.resolve_right fun hodd => ?_)⟩
      linarith [hlow' hodd]
    · rw [abs_of_nonneg (by linarith)]
      exact ⟨by linarith, fun heq => .inl (by linarith)⟩

/-! ## The end of the range -/

private theorem zpow_1024_eq : (2 : ℚ) ^ (1024 : ℤ) = 2 ^ 54 * 2 ^ (970 : ℤ) := by
  rw [← zpow_natCast, ← zpow_add₀ (by norm_num)]
  rfl

private theorem overflow_eq : overflow = (2 ^ 54 - 1) * 2 ^ (970 : ℤ) := by
  rw [overflow, zpow_1024_eq, sub_mul, one_mul]

private theorem representable_greatest : Representable ((2 ^ 54 - 2) * 2 ^ (970 : ℤ)) := by
  refine ⟨2 ^ 53 - 1, 971, by norm_num, by norm_num, ?_⟩
  have hstep : (2 : ℚ) ^ (971 : ℤ) = 2 * 2 ^ (970 : ℤ) := zpow_one_add₀ two_ne_zero 970
  rw [hstep, ← mul_assoc]
  congr 1
  norm_num

private theorem le_greatest {p : ℚ} (hp : Representable p) (hlt : p < 2 ^ (1024 : ℤ)) :
    p ≤ (2 ^ 54 - 2) * 2 ^ (970 : ℤ) := by
  have hpos : (0 : ℚ) < 2 ^ (970 : ℤ) := by positivity
  have hstep : (2 : ℚ) ^ (971 : ℤ) = 2 * 2 ^ (970 : ℤ) := zpow_one_add₀ two_ne_zero 970
  rw [zpow_1024_eq] at hlt
  rcases hp.grid 971 with ⟨k, rfl⟩ | ⟨hsmall, -⟩
  · rw [hstep, ← mul_assoc] at hlt ⊢
    have hk : (k * 2 : ℚ) < 2 ^ 54 := lt_of_mul_lt_mul_right hlt hpos.le
    have hk' : k * 2 ≤ 2 ^ 54 - 2 := by
      have : k * 2 < 2 ^ 54 := by exact_mod_cast hk
      omega
    exact mul_le_mul_of_nonneg_right (by exact_mod_cast hk') hpos.le
  · rw [hstep] at hsmall
    clear hstep
    generalize (2 : ℚ) ^ (970 : ℤ) = a at *
    linarith

private theorem odd_of_greatest {R : Nat} (hR : R ≤ 2 ^ 53)
    (h : (R * 2 ^ t : ℚ) = (2 ^ 54 - 2) * 2 ^ (970 : ℤ)) : R % 2 = 1 := by
  have hpos : (0 : ℚ) < 2 ^ (970 : ℤ) := by positivity
  have ht : 970 < t := by
    by_contra hle
    have hR' : (R : ℚ) ≤ 2 ^ 53 := by exact_mod_cast hR
    have hpow : (2 : ℚ) ^ t ≤ 2 ^ (970 : ℤ) := zpow_le_zpow_right₀ (by norm_num) (not_lt.mp hle)
    have hprod : (R * 2 ^ t : ℚ) ≤ 2 ^ 53 * 2 ^ (970 : ℤ) :=
      mul_le_mul hR' hpow (by positivity) (by positivity)
    rw [h] at hprod
    generalize (2 : ℚ) ^ (970 : ℤ) = a at *
    linarith
  obtain ⟨k, rfl⟩ : ∃ k : Nat, t = (k + 1 : Nat) + 970 := ⟨(t - 971).toNat, by omega⟩
  rw [zpow_add₀ (by norm_num), zpow_natCast, ← mul_assoc] at h
  have hwhole : R * 2 ^ (k + 1) + 2 = 2 ^ 54 := by
    have hmantissa : (R * 2 ^ (k + 1) : ℚ) = 2 ^ 54 - 2 := mul_right_cancel₀ hpos.ne' h
    have hsum : (R * 2 ^ (k + 1) + 2 : ℚ) = 2 ^ 54 := by rw [hmantissa, sub_add_cancel]
    exact_mod_cast hsum
  by_contra heven
  obtain ⟨r, rfl⟩ : 2 ∣ R := by omega
  rw [pow_succ, mul_assoc, ← mul_assoc r] at hwhole
  omega

/-- Rounding leaves the range of floats from the threshold on. -/
theorem lt_overflow_iff {R : Nat} (h : Placed q t below accuracy)
    (hR : accuracy.roundToNearestEven below = R) : (R * 2 ^ t : ℚ) < 2 ^ (1024 : ℤ) ↔ q < overflow := by
  have hpos : (0 : ℚ) < 2 ^ (970 : ℤ) := by positivity
  have hrepresentable : Representable (R * 2 ^ t) := hR ▸ h.faithful.representable
  obtain ⟨hnear, htie⟩ := abs_sub_le_of_placed h hR (representable_zpow (e := 1024) (by norm_num))
  have hnear' := (abs_sub_le_of_placed h hR representable_greatest).1
  have hodd := odd_of_greatest (R := R) (t := t)
    (hR ▸ le_trans (roundToNearestEven_bounds below accuracy).2 h.lt)
  have hle := le_greatest hrepresentable
  rw [overflow_eq]
  rw [zpow_1024_eq] at hnear htie hle ⊢
  generalize (2 : ℚ) ^ (970 : ℤ) = a at *
  generalize (R * 2 ^ t : ℚ) = v at *
  constructor
  · intro hlt
    by_contra hge
    have hle := hle hlt
    rw [abs_of_nonpos (by linarith : v - q ≤ 0)] at hnear htie
    rcases le_total q (2 ^ 54 * a) with hq | hq
    · -- The threshold is halfway to a power of two, and the greatest float is the odd one of the two.
      rw [abs_of_nonneg (by linarith)] at hnear htie
      have hv : v = (2 ^ 54 - 2) * a := by linarith
      have := htie (by linarith)
      rcases this with heq | heven
      · linarith
      · have := hodd hv
        omega
    · rw [abs_of_nonpos (by linarith)] at hnear
      linarith
  · intro hlt
    by_contra hge
    rw [abs_of_nonneg (by linarith)] at hnear'
    rcases le_total q ((2 ^ 54 - 2) * a) with hq | hq
    · rw [abs_of_nonneg (by linarith)] at hnear'
      linarith
    · rw [abs_of_nonpos (by linarith)] at hnear'
      linarith

/-! ## The float of a rounded number -/

private theorem Canonical.even_of_eq {M R : Nat} {E : ℤ} (hc : Canonical M E)
    (h : (M * 2 ^ E : ℚ) = R * 2 ^ t) (hR : R ≤ 2 ^ 53) (ht : -1074 ≤ t) (heven : R % 2 = 0) :
    M % 2 = 0 := by
  rcases lt_trichotomy E t with hlt | rfl | hlt
  · obtain ⟨k, rfl⟩ : ∃ k : Nat, t = (k + 1 : Nat) + E := ⟨(t - E - 1).toNat, by omega⟩
    rw [zpow_add₀ (by norm_num), zpow_natCast, ← mul_assoc] at h
    have hM : M = R * 2 ^ (k + 1) := by
      exact_mod_cast mul_right_cancel₀ (by positivity : (2 : ℚ) ^ E ≠ 0) h
    rw [hM, Nat.mul_mod, heven, zero_mul, Nat.zero_mod]
  · have hM : M = R := by exact_mod_cast mul_right_cancel₀ (by positivity : (2 : ℚ) ^ E ≠ 0) h
    rw [hM, heven]
  · obtain ⟨k, rfl⟩ : ∃ k : Nat, E = (k + 1 : Nat) + t := ⟨(E - t - 1).toNat, by omega⟩
    rw [zpow_add₀ (by norm_num), zpow_natCast, ← mul_assoc] at h
    have hR' : M * 2 ^ (k + 1) = R := by
      exact_mod_cast mul_right_cancel₀ (by positivity : (2 : ℚ) ^ t ≠ 0) h
    -- The exponent is not the least one, so the mantissa has all its bits.
    have hM : 2 ^ 52 ≤ M := hc.normal.resolve_right (by omega)
    have hpow : 2 ^ 1 ≤ 2 ^ (k + 1) := Nat.pow_le_pow_right (by decide) (by omega)
    have hle : M * 2 ^ 1 ≤ M * 2 ^ (k + 1) := Nat.mul_le_mul_left M hpow
    omega

private theorem Canonical.unsigned {M : Nat} {E : ℤ} (hc : Canonical M E) :
    Unsigned hc.toFloat ∧ value hc.toFloat = M * 2 ^ E ∧ hc.toFloat.toBits.toNat % 2 = M % 2 := by
  have hproper : Proper (.finite .positive M E hc.pos) := hc
  have hlow := hc.least_le
  have hhigh := hc.le_greatest
  have hbits := hc.toNat_toBits
  refine ⟨⟨isFinite_of_proper hproper, ?_⟩, ?_, ?_⟩
  · rw [hbits]
    split <;> omega
  · rw [value, hc.unpack_toFloat, unpackedValue_positive]
  · rw [hbits]
    split <;> omega

private theorem unsigned_zero : Unsigned (ofUnpacked (.zero .positive)) ∧
    value (ofUnpacked (.zero .positive)) = 0 ∧
    (ofUnpacked (.zero .positive)).toBits.toNat % 2 = 0 :=
  ⟨⟨rfl, by decide +kernel⟩, rfl, by decide +kernel⟩

private theorem ofUnpacked_infinity : ofUnpacked (.infinity .positive) = 1.0 / 0.0 := by
  decide +kernel

private theorem correctlyRounded_of_placed {R : Nat} (h : Placed q t below accuracy)
    (hR : accuracy.roundToNearestEven below = R) (hu : Signed .positive (R * 2 ^ t) u) :
    CorrectlyRounded q (ofUnpacked u) := by
  have hiff := lt_overflow_iff h hR
  have hR' : R ≤ 2 ^ 53 := hR ▸ le_trans (roundToNearestEven_bounds below accuracy).2 h.lt
  -- A float with the rounded number is the nearest, and it has an even last bit if the mantissa is even.
  have hclosest : ∀ x, Unsigned x → value x = R * 2 ^ t → (R % 2 = 0 → x.toBits.toNat % 2 = 0) →
      Closest q x := by
    intro x hunsigned hvalue heven
    have hnear := fun y hy => abs_sub_le_of_placed h hR (representable_value (x := y) hy).1
    rw [← hvalue] at hnear
    exact ⟨hunsigned, fun y hy => (hnear y hy).1, fun y hy heq =>
      ((hnear y hy).2 heq).imp_right heven⟩
  rcases hu with ⟨rfl, hzero⟩ | ⟨M, E, hM, rfl, hvalue, hlt, hleast, hnormal⟩
  · obtain ⟨hunsigned, hvalue, heven⟩ := unsigned_zero
    have hin : q < overflow := by
      rw [← hiff, hzero]
      positivity
    exact ⟨fun _ => hclosest _ hunsigned (hvalue.trans hzero.symm) fun _ => heven,
      fun hge => absurd hin (not_lt.mpr hge)⟩
  · rw [hvalue, lt_zpow_iff hlt hnormal] at hiff
    constructor
    · intro hin
      have hc : Canonical M E := ⟨hM, hlt, hleast, hiff.mpr hin, hnormal⟩
      obtain ⟨hunsigned, hnumber, hbits⟩ := hc.unsigned
      refine hclosest _ hunsigned (hnumber.trans hvalue.symm) fun heven => ?_
      exact hbits.trans (hc.even_of_eq hvalue.symm hR' h.least_le heven)
    · intro hge
      have hE : 971 < E := by
        by_contra hle
        exact absurd (hiff.mp (not_lt.mp hle)) (not_lt.mpr hge)
      have hpack := pack_eq_packedInfinity hM hE .positive
      rw [← ofUnpacked_infinity]
      unfold ofUnpacked Float.Model.pack
      simp only [hpack]
      rfl

private theorem IsRounded.correctlyRounded {x : Float} (h : IsRounded q x) : CorrectlyRounded q x := by
  obtain ⟨m, e, accuracy, happroximates, he, rfl⟩ := h
  obtain ⟨t, below, above, hplaced, hsigned⟩ := exists_placed happroximates he .positive
  exact correctlyRounded_of_placed hplaced rfl hsigned

private theorem correctlyRounded_zero (hnonneg : 0 ≤ q) (hlt : q < 2 ^ (-1075 : ℤ)) :
    CorrectlyRounded q 0.0 := by
  have hunit : (0 : ℚ) < 2 ^ (-1074 : ℤ) := by positivity
  have hhalf : (2 : ℚ) ^ (-1075 : ℤ) = 1 / 2 * 2 ^ (-1074 : ℤ) := by
    have hstep : (2 : ℚ) ^ (-1074 : ℤ) = 2 * 2 ^ (-1075 : ℤ) := zpow_one_add₀ two_ne_zero (-1075)
    rw [hstep, ← mul_assoc]
    norm_num
  have hzero : (0.0 : Float) = ofUnpacked (.zero .positive) := by decide +kernel
  obtain ⟨accuracy, happroximates, hround⟩ : ∃ accuracy : Accuracy,
      Approximates 0 accuracy (q / 2 ^ (-1074 : ℤ)) ∧ accuracy.roundToNearestEven 0 = 0 := by
    rcases hnonneg.eq_or_lt with rfl | hpos
    · exact ⟨.exact, by simp [Approximates], rfl⟩
    · refine ⟨.inexact .lt, ⟨?_, ?_⟩, rfl⟩
      · rw [Nat.cast_zero]
        positivity
      · rwa [Nat.cast_zero, zero_add, div_lt_iff₀ hunit, ← hhalf]
  rw [hzero]
  exact correctlyRounded_of_placed ⟨happroximates, le_refl _, by norm_num, .inr rfl⟩ hround
    (.inl ⟨rfl, by simp⟩)

theorem correctlyRounded_nearestFloat (digits : Nat) (exponent : Int) :
    CorrectlyRounded (digits * 10 ^ exponent) (nearestFloat digits exponent) := by
  have hten : (1 : ℚ) ≤ 10 := by norm_num
  rcases Nat.eq_zero_or_pos digits with rfl | hpos
  · rw [nearestFloat, if_pos (.inl rfl), Nat.cast_zero, zero_mul]
    exact correctlyRounded_zero le_rfl (by positivity)
  · rcases lt_or_ge (exponent + digitCount digits) (-330) with hlow | hlow
    · rw [nearestFloat, if_pos (.inr hlow)]
      refine correctlyRounded_zero (by positivity) ?_
      calc
        (digits * 10 ^ exponent : ℚ) < 10 ^ (exponent + digitCount digits) := decimal_lt _ _
        _ ≤ 10 ^ (-331 : ℤ) := zpow_le_zpow_right₀ hten (by omega)
        _ < 2 ^ (-1075 : ℤ) := ten_zpow_lt_half_least
    · rcases le_or_gt (exponent + digitCount digits) 310 with hhigh | hhigh
      · exact (isRounded_nearestFloat hpos hlow hhigh).correctlyRounded
      · have hover : overflow ≤ digits * 10 ^ exponent := by
          have hunit : (0 : ℚ) < 2 ^ (970 : ℤ) := by positivity
          calc
            overflow ≤ 2 ^ (1024 : ℤ) := by
              rw [overflow]
              exact sub_le_self _ hunit.le
            _ ≤ 10 ^ (310 : ℤ) := two_zpow_lt_ten_zpow.le
            _ ≤ 10 ^ (exponent + digitCount digits - 1) := zpow_le_zpow_right₀ hten (by omega)
            _ ≤ digits * 10 ^ exponent := le_decimal hpos _
        rw [nearestFloat, if_neg (by omega), if_pos hhigh]
        exact ⟨fun hlt => absurd hlt (not_lt.mpr hover), fun _ => rfl⟩

end EquationSolver.Decimal
