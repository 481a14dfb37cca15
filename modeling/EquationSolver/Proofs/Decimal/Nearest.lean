import EquationSolver.Decimal.Reader
import EquationSolver.Proofs.Decimal.Bits

/-!
# Reading decimals as floats

A decimal is read by rounding a mantissa that has enough bits, whatever its digits and its exponent are.
So a decimal that lies in the interval of a float is read as that float.
-/

namespace EquationSolver.Decimal

open Float.Model Float.Model.UnpackedFloat

variable {M : Nat} {E : Int}

theorem lt_pow_digitCount (n : Nat) : n < 10 ^ digitCount n := by
  unfold digitCount
  split
  · next hzero => simp [hzero]
  · exact (Nat.length_toDigits_le_iff (by decide) Nat.length_toDigits_pos).mp (le_refl _)

theorem pow_digitCount_le {n : Nat} (h : 0 < n) : 10 ^ (digitCount n - 1) ≤ n := by
  have hcount : digitCount n = (Nat.toDigits 10 n).length := if_neg h.ne'
  rw [hcount]
  rcases Nat.lt_or_ge 1 (Nat.toDigits 10 n).length with hlong | hshort
  · apply Nat.le_of_not_lt
    intro hlt
    have := (Nat.length_toDigits_le_iff (by decide) (by omega)).mpr hlt
    omega
  · have hone : (Nat.toDigits 10 n).length - 1 = 0 := by omega
    rw [hone]
    exact h

theorem digitCount_pos {n : Nat} (h : 0 < n) : 0 < digitCount n := by
  apply Nat.pos_of_ne_zero
  intro hzero
  have hlt := lt_pow_digitCount n
  rw [hzero] at hlt
  omega

private theorem roundsTo_self (M : Nat) (E : Int) : RoundsTo M E (M * 2 ^ E) := by
  have hunit : (0 : ℚ) < 2 ^ (E - 2) := by positivity
  have hgap : (0 : ℚ) < lowerGap M E := by
    unfold lowerGap
    split <;> norm_num
  have hvalue : (M * 2 ^ E : ℚ) = 4 * M * 2 ^ (E - 2) := by
    rw [← four_mul_zpow E]
    ring
  have hlow : (4 * M - lowerGap M E) * (2 : ℚ) ^ (E - 2) < M * 2 ^ E := by
    rw [hvalue]
    exact mul_lt_mul_of_pos_right (by linarith) hunit
  have hhigh : (M * 2 ^ E : ℚ) < (4 * M + 2) * 2 ^ (E - 2) := by
    rw [hvalue]
    exact mul_lt_mul_of_pos_right (by linarith) hunit
  exact ⟨hlow.le, hhigh.le, fun _ => hlow, fun _ => hhigh⟩

private theorem canonical_scaled {n k : Nat} (h : 0 < n) (hlt : n < 2 ^ 53) (hk : k ≤ 900) :
    Canonical (n * 2 ^ (52 - n.log2)) (n.log2 - 52 + k : Int) ∧ 2 ^ 52 ≤ n * 2 ^ (52 - n.log2) ∧
      ((n * 2 ^ (52 - n.log2) : Nat) * 2 ^ (n.log2 - 52 + k : Int) : ℚ) = n * 2 ^ k := by
  have hlog : n.log2 ≤ 52 := Nat.le_of_lt_succ ((Nat.log2_lt h.ne').mpr hlt)
  have hself := Nat.log2_self_le h.ne'
  have hself' := Nat.lt_log2_self (n := n)
  have hlow : 2 ^ 52 ≤ n * 2 ^ (52 - n.log2) := calc
    2 ^ 52 = 2 ^ n.log2 * 2 ^ (52 - n.log2) := by rw [← pow_add]; congr 1; omega
    _ ≤ n * 2 ^ (52 - n.log2) := Nat.mul_le_mul_right _ hself
  have hhigh : n * 2 ^ (52 - n.log2) < 2 ^ 53 := calc
    n * 2 ^ (52 - n.log2) < 2 ^ (n.log2 + 1) * 2 ^ (52 - n.log2) :=
      Nat.mul_lt_mul_of_pos_right hself' (by positivity)
    _ = 2 ^ 53 := by rw [← pow_add]; congr 1; omega
  refine ⟨⟨by omega, hhigh, by omega, by omega, .inl hlow⟩, hlow, ?_⟩
  have hexponent : ((52 - n.log2 : Nat) : Int) + (n.log2 - 52 + k : Int) = k := by omega
  push_cast
  rw [mul_assoc, ← zpow_natCast, ← zpow_add₀ (by norm_num), hexponent, zpow_natCast]

private theorem exists_toFloat_eq {n : Nat} (h : 0 < n) (hlt : n < 2 ^ 53) :
    ∃ (M : Nat) (E : Int) (hc : Canonical M E), n.toUInt64.toFloat = hc.toFloat ∧
      (M * 2 ^ E : ℚ) = n ∧ 2 ^ 52 ≤ M := by
  have hlog : n.log2 ≤ 52 := Nat.le_of_lt_succ ((Nat.log2_lt h.ne').mpr hlt)
  obtain ⟨hc, hlow, hvalue⟩ := canonical_scaled h hlt (Nat.zero_le 900)
  have hzero : (n.log2 - 52 + (0 : Nat) : Int) = n.log2 - 52 := Int.add_zero _
  rw [hzero] at hc hvalue
  refine ⟨_, _, hc, ?_, by simpa using hvalue, hlow⟩
  have hshift : n <<< (52 - n.log2) = n * 2 ^ (52 - n.log2) := Nat.shiftLeft_eq _ _
  -- The number is shifted up to 53 bits before it is rounded, and so nothing is lost.
  have hround : UnpackedFloat.ofNat Format.binary64 n =
      roundWithAccuracy Format.binary64 .positive (n * 2 ^ (52 - n.log2)) (n.log2 - 52 : Int)
        .exact := by
    have hcmp : compare (n : Int) 0 = .gt := Int.compare_eq_gt.mpr (by omega)
    have htarget : Format.binary64.targetExponent (totalExponent n 0) = n.log2 - 52 := by
      rw [targetExponent_eq]
      omega
    have hamount : (0 - (n.log2 - 52 : Int)).toNat = 52 - n.log2 := by omega
    have hexponent : 0 - ((52 - n.log2 : Nat) : Int) = n.log2 - 52 := by omega
    simp only [UnpackedFloat.ofNat, UnpackedFloat.ofInt, UnpackedFloat.normalize, hcmp,
      Int.toNat_natCast, UnpackedFloat.round, htarget, decreaseExponent, hamount, hshift, hexponent]
  have hexact : Approximates (n * 2 ^ (52 - n.log2)) .exact
      ((n * 2 ^ (52 - n.log2) : Nat) * 2 ^ (n.log2 - 52 : Int) / 2 ^ (n.log2 - 52 : Int)) :=
    mul_div_cancel_right₀ _ (by positivity)
  have hfinite :=
    (roundsTo_self _ _).roundWithAccuracy_eq hc hexact (le_targetExponent hlow _) .positive
  have hnat : n.toUInt64.toNat = n := by
    rw [Nat.toUInt64, UInt64.toNat_ofNat']
    omega
  have hmodel : n.toUInt64.toFloat =
      .ofModel (.pack (UnpackedFloat.ofNat Format.binary64 n.toUInt64.toNat)) := rfl
  rw [hmodel, hnat, hround, hfinite]
  rfl

private theorem toBits_powerOfTen (k : Fin Float.exactlyRepresentablePowersOfTen.size) :
    5 ^ k.val < 2 ^ 53 ∧ k.val ≤ 900 ∧ Float.exactlyRepresentablePowersOfTen[k].toBits.toNat =
      ((5 ^ k.val).log2 - 52 + k.val + 1075 : Int).toNat * 2 ^ 52 +
        5 ^ k.val * 2 ^ (52 - (5 ^ k.val).log2) % 2 ^ 52 := by
  revert k
  decide +kernel

private theorem exists_powerOfTen_eq {k : Nat} (h : k < Float.exactlyRepresentablePowersOfTen.size) :
    ∃ (M : Nat) (E : Int) (hc : Canonical M E),
      Float.exactlyRepresentablePowersOfTen[k] = hc.toFloat ∧ (M * 2 ^ E : ℚ) = 10 ^ k ∧ 2 ^ 52 ≤ M := by
  obtain ⟨hlt, hk, hbits⟩ := toBits_powerOfTen ⟨k, h⟩
  obtain ⟨hc, hlow, hvalue⟩ := canonical_scaled (Nat.pow_pos (by decide)) hlt hk
  refine ⟨_, _, hc, Float.toBits_inj.mp (UInt64.toNat_inj.mp ?_), ?_, hlow⟩
  · rw [hc.toNat_toBits, if_pos hlow]
    exact hbits
  · rw [hvalue]
    push_cast
    rw [← mul_pow]
    norm_num

private theorem RoundsTo.zpow_le {value : ℚ} (hc : Canonical M E) (hr : RoundsTo M E value) :
    2 ^ (E - 1) ≤ value := by
  have hpos : (1 : ℚ) ≤ M := by exact_mod_cast hc.pos
  have hgap : (lowerGap M E : ℚ) ≤ 2 := by exact_mod_cast lowerGap_le_two M E
  calc
    (2 : ℚ) ^ (E - 1) = 2 * 2 ^ (E - 2) := (two_mul_zpow E).symm
    _ ≤ (4 * M - lowerGap M E) * 2 ^ (E - 2) :=
      mul_le_mul_of_nonneg_right (by linarith) (by positivity)
    _ ≤ value := hr.low_le

section Decimals

variable {q : ℚ} {D : Nat} {p : Int}

theorem decimal_lt (D : Nat) (p : Int) : (D * 10 ^ p : ℚ) < 10 ^ (p + digitCount D) := by
  have hlt : (D : ℚ) < 10 ^ digitCount D := by exact_mod_cast lt_pow_digitCount D
  calc
    (D * 10 ^ p : ℚ) < 10 ^ digitCount D * 10 ^ p := mul_lt_mul_of_pos_right hlt (by positivity)
    _ = 10 ^ (p + digitCount D) := by rw [zpow_add₀ (by norm_num), zpow_natCast, mul_comm]

theorem le_decimal (hD : 0 < D) (p : Int) : (10 : ℚ) ^ (p + digitCount D - 1) ≤ D * 10 ^ p := by
  have hcount := digitCount_pos hD
  have hexponent : p + digitCount D - 1 = ((digitCount D - 1 : Nat) : Int) + p := by omega
  have hge : (10 ^ (digitCount D - 1) : ℚ) ≤ D := by exact_mod_cast pow_digitCount_le hD
  rw [hexponent, zpow_add₀ (by norm_num), zpow_natCast]
  exact mul_le_mul_of_nonneg_right hge (by positivity)

theorem ten_zpow_lt_half_least : (10 : ℚ) ^ (-331 : Int) < 2 ^ (-1075 : Int) := by
  rw [zpow_neg, zpow_neg, inv_lt_inv₀ (by positivity) (by positivity)]
  exact_mod_cast (by decide +kernel : 2 ^ 1075 < 10 ^ 331)

theorem two_zpow_lt_ten_zpow : (2 : ℚ) ^ (1024 : Int) < 10 ^ (310 : Int) := by
  exact_mod_cast (by decide +kernel : 2 ^ 1024 < 10 ^ 310)

theorem RoundsTo.magnitude (hc : Canonical M E) (hr : RoundsTo M E (D * 10 ^ p)) :
    0 < D ∧ -330 ≤ p + digitCount D ∧ p + digitCount D ≤ 310 := by
  have hten : (1 : ℚ) < 10 := by norm_num
  have htwo : (1 : ℚ) ≤ 2 := by norm_num
  have hlow := hr.zpow_le hc
  have hhigh := hr.lt_zpow hc
  have hD : 0 < D := by
    apply Nat.pos_of_ne_zero
    intro hzero
    rw [hzero] at hlow
    have : (0 : ℚ) < 2 ^ (E - 1) := by positivity
    simp at hlow
    linarith
  refine ⟨hD, ?_, ?_⟩
  · have hle := hc.least_le
    have hchain : (10 : ℚ) ^ (-331 : Int) < 10 ^ (p + digitCount D) := calc
      (10 : ℚ) ^ (-331 : Int) < 2 ^ (-1075 : Int) := ten_zpow_lt_half_least
      _ ≤ 2 ^ (E - 1) := zpow_le_zpow_right₀ htwo (by omega)
      _ ≤ D * 10 ^ p := hlow
      _ < 10 ^ (p + digitCount D) := decimal_lt D p
    have := (zpow_lt_zpow_iff_right₀ hten).mp hchain
    omega
  · have hle := hc.le_greatest
    have hchain : (10 : ℚ) ^ (p + digitCount D - 1) < 10 ^ (310 : Int) := calc
      (10 : ℚ) ^ (p + digitCount D - 1) ≤ D * 10 ^ p := le_decimal hD p
      _ < 2 ^ (53 + E) := hhigh
      _ ≤ 2 ^ (1024 : Int) := zpow_le_zpow_right₀ htwo (by omega)
      _ < 10 ^ (310 : Int) := two_zpow_lt_ten_zpow
    have := (zpow_lt_zpow_iff_right₀ hten).mp hchain
    omega

/-- Whether a float comes of a number by rounding a mantissa that has enough bits. -/
def IsRounded (q : ℚ) (x : Float) : Prop :=
  ∃ (m : Nat) (e : Int) (accuracy : Accuracy), Approximates m accuracy (q / 2 ^ e) ∧
    e ≤ Format.binary64.targetExponent (totalExponent m e) ∧
    x = .ofModel (.pack (roundWithAccuracy Format.binary64 .positive m e accuracy))

private theorem IsRounded.eq_toFloat {x : Float} (h : IsRounded q x) (hc : Canonical M E)
    (hr : RoundsTo M E q) : x = hc.toFloat := by
  obtain ⟨m, e, accuracy, happroximates, he, rfl⟩ := h
  rw [hr.roundWithAccuracy_eq hc happroximates he]
  rfl

private theorem isRounded_mul {m₁ m₂ : Nat} (hbits : 2 ^ 52 ≤ m₁ * m₂) (e₁ e₂ : Int) (h₁ : 0 < m₁)
    (h₂ : 0 < m₂) :
    IsRounded (m₁ * 2 ^ e₁ * (m₂ * 2 ^ e₂)) (.ofModel (.pack (UnpackedFloat.mul Format.binary64
      (.finite .positive m₁ e₁ h₁) (.finite .positive m₂ e₂ h₂)))) :=
  ⟨m₁ * m₂, e₁ + e₂, .exact, approximates_product m₁ m₂ e₁ e₂, le_targetExponent hbits _, rfl⟩

private theorem isRounded_div {m₁ m₂ : Nat} (e₁ e₂ : Int) (h₁ : 0 < m₁) (h₂ : 0 < m₂) :
    IsRounded (m₁ * 2 ^ e₁ / (m₂ * 2 ^ e₂)) (.ofModel (.pack (UnpackedFloat.div Format.binary64
      (.finite .positive m₁ e₁ h₁) (.finite .positive m₂ e₂ h₂)))) := by
  obtain ⟨t, ht⟩ : ∃ t, t = min (e₁ - e₂)
    (Format.binary64.targetExponent (totalExponent m₁ e₁ - totalExponent m₂ e₂)) := ⟨_, rfl⟩
  refine ⟨_, t, _, approximates_quotient h₂ (by omega), le_targetExponent_quotient h₁ h₂ ht, ?_⟩
  simp only [UnpackedFloat.div, divCore, ← ht]
  rfl

private theorem ten_zpow_of_nonneg (h : 0 ≤ p) : (10 : ℚ) ^ p = 10 ^ p.natAbs := by
  rw [← zpow_natCast, Int.natAbs_of_nonneg h]

private theorem ten_zpow_of_neg (h : p < 0) : (10 : ℚ) ^ p = 1 / 10 ^ p.natAbs := by
  rw [← zpow_natCast, Int.ofNat_natAbs_of_nonpos h.le, zpow_neg, one_div, inv_inv]

private theorem isRounded_small (hD : 0 < D) (hlt : D < 2 ^ 53)
    (hp : p.natAbs < Float.exactlyRepresentablePowersOfTen.size) :
    IsRounded (D * 10 ^ p)
      (if p < 0 then D.toUInt64.toFloat / Float.exactlyRepresentablePowersOfTen[p.natAbs]
        else D.toUInt64.toFloat * Float.exactlyRepresentablePowersOfTen[p.natAbs]) := by
  obtain ⟨M₁, E₁, hc₁, hfloat₁, hvalue₁, hM₁⟩ := exists_toFloat_eq hD hlt
  obtain ⟨M₂, E₂, hc₂, hfloat₂, hvalue₂, hM₂⟩ := exists_powerOfTen_eq hp
  rw [hfloat₁, hfloat₂]
  split
  · next hneg =>
    rw [ten_zpow_of_neg hneg, ← hvalue₁, ← hvalue₂, mul_one_div]
    have hdiv : hc₁.toFloat / hc₂.toFloat = .ofModel (.pack (UnpackedFloat.div Format.binary64
        hc₁.toFloat.toModel.unpack hc₂.toFloat.toModel.unpack)) := rfl
    rw [hdiv, hc₁.unpack_toFloat, hc₂.unpack_toFloat]
    exact isRounded_div E₁ E₂ hc₁.pos hc₂.pos
  · next hpos =>
    rw [ten_zpow_of_nonneg (not_lt.mp hpos), ← hvalue₁, ← hvalue₂]
    have hmul : hc₁.toFloat * hc₂.toFloat = .ofModel (.pack (UnpackedFloat.mul Format.binary64
        hc₁.toFloat.toModel.unpack hc₂.toFloat.toModel.unpack)) := rfl
    have hbits : 2 ^ 52 ≤ M₁ * M₂ := le_trans hM₁ (Nat.le_mul_of_pos_right _ hc₂.pos)
    rw [hmul, hc₁.unpack_toFloat, hc₂.unpack_toFloat]
    exact isRounded_mul hbits E₁ E₂ hc₁.pos hc₂.pos

private theorem log2_le_digitCount (hD : 0 < D) : digitCount D ≤ D.log2 + 1 := by
  have hpow : 10 ^ (digitCount D - 1) ≤ D := pow_digitCount_le hD
  have hlog : digitCount D - 1 ≤ D.log2 := (Nat.le_log2 hD.ne').mpr (le_trans
    (Nat.pow_le_pow_left (by decide) _) hpow)
  omega

private theorem isRounded_exact (hD : 0 < D) (hlow : -330 ≤ p + digitCount D)
    (hhigh : p + digitCount D ≤ 310) :
    IsRounded (D * 10 ^ p) (.ofModel (.pack (UnpackedFloat.ofScientific Format.binary64 D p))) := by
  have hcount := log2_le_digitCount hD
  have hpositive := digitCount_pos hD
  have hlarge : ¬p > 2 ^ Format.binary64.exponentBits := by
    norm_num
    omega
  have hsmall : ¬p < -((2 ^ Format.binary64.exponentBits : Int) + D.log2) := by
    norm_num
    omega
  rw [UnpackedFloat.ofScientific, dif_neg hD.ne', if_neg hlarge, if_neg hsmall]
  split
  · next hpos =>
    have hvalue : (D * 10 ^ p : ℚ) = (D <<< Format.binary64.mantissaBits : Nat) *
        2 ^ (-(Format.binary64.mantissaBits : Int)) * ((10 ^ p.toNat : Nat) * 2 ^ (0 : Int)) := by
      have habs : p.natAbs = p.toNat := by omega
      rw [ten_zpow_of_nonneg hpos, habs, Nat.shiftLeft_eq, zpow_neg, zpow_natCast, zpow_zero]
      push_cast
      rw [mul_one, mul_assoc (D : ℚ), mul_inv_cancel₀ (by positivity), mul_one]
    -- Shifted up by 53 bits, the digits fill the mantissa of the product.
    have hbits : 2 ^ 52 ≤ (D <<< Format.binary64.mantissaBits) * 10 ^ p.toNat := by
      have hten : 0 < 10 ^ p.toNat := Nat.pow_pos (by decide)
      have hshift : D <<< Format.binary64.mantissaBits = D * 2 ^ 53 := Nat.shiftLeft_eq _ _
      rw [hshift]
      exact le_trans (by omega) (Nat.le_mul_of_pos_right _ hten)
    rw [hvalue]
    exact isRounded_mul hbits _ _ _ _
  · next hneg =>
    have hvalue : (D * 10 ^ p : ℚ) = D * 2 ^ (0 : Int) / ((10 ^ (-p).toNat : Nat) * 2 ^ (0 : Int)) := by
      have habs : p.natAbs = (-p).toNat := by omega
      rw [ten_zpow_of_neg (not_le.mp hneg), habs, zpow_zero, mul_one, mul_one, mul_one_div]
      push_cast
      rfl
    rw [hvalue]
    exact isRounded_div _ _ _ _

/-- A decimal whose leading digit is not far out of the range of floats is rounded. -/
theorem isRounded_nearestFloat (hD : 0 < D) (hlow : -330 ≤ p + digitCount D)
    (hhigh : p + digitCount D ≤ 310) : IsRounded (D * 10 ^ p) (nearestFloat D p) := by
  rw [nearestFloat, if_neg (by omega), if_neg (by omega), Float.ofScientific]
  split
  · next hfast =>
    have hsize : p.natAbs < Float.exactlyRepresentablePowersOfTen.size := by
      simp only [Float.exactlyRepresentablePowersOfTen, List.size_toArray, List.length_cons,
        List.length_nil]
      omega
    simpa using isRounded_small hD hfast.1 hsize
  · have hexponent : (if decide (p < 0) then Int.negOfNat p.natAbs else Int.ofNat p.natAbs) = p := by
      rw [Int.negOfNat_eq, Int.ofNat_eq_natCast]
      split
      · next hneg =>
        have := of_decide_eq_true hneg
        omega
      · next hpos =>
        have := of_decide_eq_false (Bool.eq_false_iff.mpr hpos)
        omega
    simp only [hexponent]
    exact isRounded_exact hD hlow hhigh

/-- A decimal that is rounded to a float is read as it. -/
theorem RoundsTo.nearestFloat_eq (hc : Canonical M E) (hr : RoundsTo M E (D * 10 ^ p)) :
    nearestFloat D p = hc.toFloat := by
  obtain ⟨hD, hlow, hhigh⟩ := hr.magnitude hc
  exact (isRounded_nearestFloat hD hlow hhigh).eq_toFloat hc hr

end Decimals

end EquationSolver.Decimal
