import EquationSolver.Proofs.Decimal.Bits

/-!
# The numbers that floats stand for

A finite float stands for a rational number, and finite floats compare as their numbers do.
-/

namespace EquationSolver.Floats

open Float.Model Float.Model.UnpackedFloat Decimal

/-- The number that a float stands for. What is not finite is given the number zero. -/
def unpackedValue : UnpackedFloat → ℚ
  | .finite sign mantissa exponent _ => (sign.apply mantissa : ℤ) * 2 ^ exponent
  | .zero _ | .infinity _ | .notANumber => 0

theorem unpackedValue_positive {M : Nat} {E : Int} (hM : 0 < M) :
    unpackedValue (.finite .positive M E hM) = M * 2 ^ E := by
  simp [unpackedValue, UnpackedFloat.Sign.apply]

theorem unpackedValue_negative {M : Nat} {E : Int} (hM : 0 < M) :
    unpackedValue (.finite .negative M E hM) = -(M * 2 ^ E) := by
  simp [unpackedValue, UnpackedFloat.Sign.apply]

/-- Whether a float taken apart is zero, or has the mantissa and the exponent of a float. -/
def Proper : UnpackedFloat → Prop
  | .finite _ mantissa exponent _ => Canonical mantissa exponent
  | .zero _ => True
  | .infinity _ | .notANumber => False

theorem toNat_leadingOne (mantissa : BitVec 52) : (1#1 ++ mantissa).toNat = 2 ^ 52 + mantissa.toNat := by
  rw [BitVec.toNat_append, ← Nat.shiftLeft_add_eq_or_of_lt mantissa.isLt]
  rfl

theorem canonical_of_unpack {bits : BitVec 64} {sign : UnpackedFloat.Sign} {M : Nat} {E : Int}
    {hM : 0 < M} (h : UnpackedFloat.unpack Format.binary64 bits = .finite sign M E hM) :
    Canonical M E := by
  have hmantissa := (@unpackMantissa Format.binary64 bits).isLt
  have hexponent := (@unpackExponent Format.binary64 bits).isLt
  change (@unpackMantissa Format.binary64 bits).toNat < 2 ^ 52 at hmantissa
  change (@unpackExponent Format.binary64 bits).toNat < 2 ^ 11 at hexponent
  simp only [UnpackedFloat.unpack, exponentBias_add] at h
  split at h
  · split at h <;> cases h
  · next hones =>
    have hones' : (@unpackExponent Format.binary64 bits).toNat ≠ 2047 := fun heq =>
      hones (BitVec.eq_of_toNat_eq heq)
    split at h
    · next hzero =>
      rw [hzero] at h
      split at h
      · cases h
      · simp only [UnpackedFloat.finite.injEq] at h
        obtain ⟨-, rfl, rfl⟩ := h
        exact ⟨hM, by omega, by simp, by simp, .inr (by simp)⟩
    · next hzero =>
      have hzero' : (@unpackExponent Format.binary64 bits).toNat ≠ 0 := fun heq =>
        hzero (BitVec.eq_of_toNat_eq heq)
      have hjoined : (1#1 ++ @unpackMantissa Format.binary64 bits).toNat =
          2 ^ 52 + (@unpackMantissa Format.binary64 bits).toNat :=
        toNat_leadingOne _
      simp only [UnpackedFloat.finite.injEq] at h
      obtain ⟨-, rfl, rfl⟩ := h
      exact ⟨hM, by omega, by omega, by omega, .inl (by omega)⟩

theorem proper_unpack {x : Float} (h : x.isFinite = true) : Proper x.toModel.unpack := by
  have hfinite : x.toModel.unpack.isFinite = true := h
  cases hx : x.toModel.unpack with
  | infinity | notANumber =>
    rw [hx] at hfinite
    cases hfinite
  | zero => trivial
  | finite => exact canonical_of_unpack hx

theorem mul_zpow_pos {M : Nat} (hM : 0 < M) (E : Int) : (0 : ℚ) < M * 2 ^ E := by
  have : (0 : ℚ) < M := by exact_mod_cast hM
  positivity

theorem compare_then {M₁ M₂ : Nat} {E₁ E₂ : Int} (h₁ : Canonical M₁ E₁) (h₂ : Canonical M₂ E₂) :
    (compare E₁ E₂).then (compare M₁ M₂) = compare (M₁ * 2 ^ E₁ : ℚ) (M₂ * 2 ^ E₂) := by
  have hlt : ∀ {M₁ M₂ : Nat} {E₁ E₂ : Int}, Canonical M₁ E₁ → Canonical M₂ E₂ → E₁ < E₂ →
      (M₁ * 2 ^ E₁ : ℚ) < M₂ * 2 ^ E₂ := by
    intro M₁ M₂ E₁ E₂ h₁ h₂ hE
    have hleast := h₁.least_le
    have hM₁ : (M₁ : ℚ) < 2 ^ 53 := by exact_mod_cast h₁.lt
    have hM₂ : (2 ^ 52 : ℚ) ≤ M₂ := by exact_mod_cast h₂.normal.resolve_right (by omega)
    calc
      (M₁ * 2 ^ E₁ : ℚ) < 2 ^ 53 * 2 ^ E₁ := mul_lt_mul_of_pos_right hM₁ (by positivity)
      _ = 2 ^ 52 * 2 ^ (E₁ + 1) := by rw [zpow_add₀ (by norm_num)]; ring
      _ ≤ 2 ^ 52 * 2 ^ E₂ :=
        mul_le_mul_of_nonneg_left (zpow_le_zpow_right₀ (by norm_num) (by omega)) (by norm_num)
      _ ≤ M₂ * 2 ^ E₂ := mul_le_mul_of_nonneg_right hM₂ (by positivity)
  rcases lt_trichotomy E₁ E₂ with hE | rfl | hE
  · rw [compare_lt_iff_lt.mpr hE, compare_lt_iff_lt.mpr (hlt h₁ h₂ hE)]
    rfl
  · have hunit : (0 : ℚ) < 2 ^ E₁ := by positivity
    rw [compare_eq_iff_eq.mpr (rfl : E₁ = E₁), Ordering.eq_then]
    rcases lt_trichotomy M₁ M₂ with hM | rfl | hM
    · have hmul : (M₁ * 2 ^ E₁ : ℚ) < M₂ * 2 ^ E₁ :=
        mul_lt_mul_of_pos_right (by exact_mod_cast hM) hunit
      rw [compare_lt_iff_lt.mpr hM, compare_lt_iff_lt.mpr hmul]
    · rw [compare_eq_iff_eq.mpr (rfl : M₁ = M₁), compare_eq_iff_eq.mpr rfl]
    · have hmul : (M₂ * 2 ^ E₁ : ℚ) < M₁ * 2 ^ E₁ :=
        mul_lt_mul_of_pos_right (by exact_mod_cast hM) hunit
      rw [compare_gt_iff_gt.mpr hM, compare_gt_iff_gt.mpr hmul]
  · rw [compare_gt_iff_gt.mpr hE, compare_gt_iff_gt.mpr (hlt h₂ h₁ hE)]
    rfl

private theorem compare_neg_neg (a b : ℚ) : compare (-a) (-b) = (compare a b).swap := by
  rcases lt_trichotomy a b with h | rfl | h
  · rw [compare_lt_iff_lt.mpr h, compare_gt_iff_gt.mpr (neg_lt_neg h)]
    rfl
  · simp
  · rw [compare_gt_iff_gt.mpr h, compare_lt_iff_lt.mpr (neg_lt_neg h)]
    rfl

private theorem compare_eq {u v : UnpackedFloat} (hu : Proper u) (hv : Proper v) :
    u.compare v = some (compare (unpackedValue u) (unpackedValue v)) := by
  cases u with
  | infinity | notANumber => exact hu.elim
  | zero =>
    cases v with
    | infinity | notANumber => exact hv.elim
    | zero => exact congrArg some (compare_eq_iff_eq.mpr rfl).symm
    | finite sign M E hM =>
      have hM' := mul_zpow_pos hM E
      cases sign with
      | negative =>
        rw [unpackedValue_negative]
        exact congrArg some (compare_gt_iff_gt.mpr (neg_lt_zero.mpr hM')).symm
      | positive =>
        rw [unpackedValue_positive]
        exact congrArg some (compare_lt_iff_lt.mpr hM').symm
  | finite sign M E hM =>
    have hM' := mul_zpow_pos hM E
    cases v with
    | infinity | notANumber => exact hv.elim
    | zero =>
      cases sign with
      | negative =>
        rw [unpackedValue_negative]
        exact congrArg some (compare_lt_iff_lt.mpr (neg_lt_zero.mpr hM')).symm
      | positive =>
        rw [unpackedValue_positive]
        exact congrArg some (compare_gt_iff_gt.mpr hM').symm
    | finite sign' N F hN =>
      have hN' := mul_zpow_pos hN F
      cases sign with
      | negative =>
        rw [unpackedValue_negative]
        cases sign' with
        | negative =>
          rw [unpackedValue_negative, compare_neg_neg]
          exact congrArg some (congrArg Ordering.swap (compare_then hu hv))
        | positive =>
          rw [unpackedValue_positive]
          exact congrArg some (compare_lt_iff_lt.mpr (by linarith)).symm
      | positive =>
        rw [unpackedValue_positive]
        cases sign' with
        | negative =>
          rw [unpackedValue_negative]
          exact congrArg some (compare_gt_iff_gt.mpr (by linarith)).symm
        | positive =>
          rw [unpackedValue_positive]
          exact congrArg some (compare_then hu hv)

private theorem compare_swap (u v : UnpackedFloat) : v.compare u = (u.compare v).map Ordering.swap := by
  have hthen : ∀ (e₁ e₂ : Int) (m₁ m₂ : Nat), (compare e₂ e₁).then (compare m₂ m₁) =
      ((compare e₁ e₂).then (compare m₁ m₂)).swap := by
    intro e₁ e₂ m₁ m₂
    rw [Ordering.swap_then, ← Std.OrientedCmp.eq_swap, ← Std.OrientedCmp.eq_swap]
  cases u with
  | notANumber =>
    cases v <;> rfl
  | infinity s =>
    cases v with
    | infinity s' => cases s <;> cases s' <;> rfl
    | notANumber | zero | finite => cases s <;> rfl
  | zero s =>
    cases v with
    | infinity s' | finite s' => cases s' <;> rfl
    | notANumber | zero => rfl
  | finite s m e hm =>
    cases v with
    | infinity s' => cases s' <;> rfl
    | notANumber => rfl
    | zero => cases s <;> rfl
    | finite s' m' e' hm' =>
      cases s <;> cases s'
      · exact congrArg some (congrArg Ordering.swap (hthen e e' m m'))
      · rfl
      · rfl
      · exact congrArg some (hthen e e' m m')

theorem not_lt_of_lt {x y : Float} (h : x < y) : ¬y < x := by
  have hmodel : ∀ x y : Float, x < y ↔ x.toModel.unpack.compare y.toModel.unpack = some .lt := by
    intro x y
    exact decide_eq_true_iff.trans beq_iff_eq
  rw [hmodel] at h ⊢
  rw [compare_swap, h]
  decide

/-- The number that a float stands for. -/
def value (x : Float) : ℚ :=
  unpackedValue x.toModel.unpack

variable {x y : Float}

theorem lt_iff_value_lt (hx : x.isFinite = true) (hy : y.isFinite = true) :
    x < y ↔ value x < value y := by
  have hmodel : x < y ↔ (x.toModel.unpack.compare y.toModel.unpack == some .lt) = true :=
    decide_eq_true_iff
  rw [hmodel, compare_eq (proper_unpack hx) (proper_unpack hy), beq_iff_eq, Option.some_inj,
    compare_lt_iff_lt]
  rfl

theorem le_iff_value_le (hx : x.isFinite = true) (hy : y.isFinite = true) :
    x ≤ y ↔ value x ≤ value y := by
  have hmodel : x ≤ y ↔ (x.toModel.unpack.compare y.toModel.unpack).any (fun o => o.isLE) = true :=
    decide_eq_true_iff
  rw [hmodel, compare_eq (proper_unpack hx) (proper_unpack hy), Option.any_some,
    ← Ordering.ne_gt_iff_isLE, compare_gt_iff_gt, not_lt]
  rfl

theorem beq_iff_value_eq (hx : x.isFinite = true) (hy : y.isFinite = true) :
    (x == y) = true ↔ value x = value y := by
  change (x.toModel.unpack.compare y.toModel.unpack == some .eq) = true ↔ _
  rw [compare_eq (proper_unpack hx) (proper_unpack hy), beq_iff_eq, Option.some_inj,
    compare_eq_iff_eq]
  rfl

theorem finite_zero : (0 : Float).isFinite = true := by decide

private theorem value_zero : value 0 = 0 := rfl

theorem pos_iff_value_pos (hx : x.isFinite = true) : 0 < x ↔ 0 < value x := by
  rw [lt_iff_value_lt finite_zero hx, value_zero]

theorem neg_iff_value_neg (hx : x.isFinite = true) : x < 0 ↔ value x < 0 := by
  rw [lt_iff_value_lt hx finite_zero, value_zero]

theorem nonneg_iff_value_nonneg (hx : x.isFinite = true) : 0 ≤ x ↔ 0 ≤ value x := by
  rw [le_iff_value_le finite_zero hx, value_zero]

theorem nonpos_iff_value_nonpos (hx : x.isFinite = true) : x ≤ 0 ↔ value x ≤ 0 := by
  rw [le_iff_value_le hx finite_zero, value_zero]

theorem eq_zero_iff_value_eq_zero (hx : x.isFinite = true) : (x == 0) = true ↔ value x = 0 := by
  rw [beq_iff_value_eq hx finite_zero, value_zero]

end EquationSolver.Floats
