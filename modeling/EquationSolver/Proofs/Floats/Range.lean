import EquationSolver.Proofs.Floats.Arithmetic

/-!
# Leaving the range of floats

Sums, differences and products of a float that is not finite are not finite either, nor are its
quotients. A float that is not greater than another one can be divided by it and cleared with the
quotient, and all that is formed on the way is finite.
-/

namespace EquationSolver.Floats

open Float.Model Float.Model.UnpackedFloat Decimal

section Unpacked

variable {u v : UnpackedFloat}

private theorem isFinite_of_ofUnpacked (h : (ofUnpacked u).isFinite = true) : u.isFinite = true := by
  cases u with
  | zero | finite => rfl
  | notANumber =>
    simp only [Float.isFinite, Float.Model.isFinite, unpack_ofUnpacked_notANumber] at h
    cases h
  | infinity sign =>
    simp only [Float.isFinite, Float.Model.isFinite, unpack_ofUnpacked_infinity] at h
    cases h

private theorem isFinite_of_add_unpacked (h : (UnpackedFloat.add Format.binary64 u v).isFinite = true) :
    u.isFinite = true ∧ v.isFinite = true := by
  cases u with
  | notANumber => cases h
  | infinity s =>
    cases v with
    | infinity s' => cases s <;> cases s' <;> cases h
    | notANumber | zero | finite => cases h
  | zero | finite =>
    cases v with
    | notANumber | infinity => cases h
    | zero | finite => exact ⟨rfl, rfl⟩

private theorem isFinite_of_sub_unpacked (h : (UnpackedFloat.sub Format.binary64 u v).isFinite = true) :
    u.isFinite = true ∧ v.isFinite = true := by
  cases u with
  | notANumber => cases h
  | infinity s =>
    cases v with
    | infinity s' => cases s <;> cases s' <;> cases h
    | notANumber | zero | finite => cases h
  | zero | finite =>
    cases v with
    | notANumber | infinity => cases h
    | zero | finite => exact ⟨rfl, rfl⟩

private theorem isFinite_of_mul_unpacked (h : (UnpackedFloat.mul Format.binary64 u v).isFinite = true) :
    u.isFinite = true ∧ v.isFinite = true := by
  cases u with
  | notANumber => cases h
  | infinity =>
    cases v with
    | notANumber | infinity | zero | finite => cases h
  | zero | finite =>
    cases v with
    | notANumber | infinity => cases h
    | zero | finite => exact ⟨rfl, rfl⟩

private theorem isFinite_of_div_unpacked (h : (UnpackedFloat.div Format.binary64 u v).isFinite = true) :
    u.isFinite = true := by
  cases u with
  | notANumber => cases h
  | infinity =>
    cases v with
    | notANumber | infinity | zero | finite => cases h
  | zero | finite => rfl

private theorem withSign_mul (s s' : UnpackedFloat.Sign) (p q : ℚ) :
    withSign s p * withSign s' q = withSign (s * s') (p * q) := by
  cases s <;> cases s'
  · exact neg_mul_neg p q
  · exact neg_mul p q
  · exact mul_neg p q
  · rfl

private theorem le_targetExponent_product {m₁ m₂ : Nat} {e₁ e₂ : Int} (h₁ : Canonical m₁ e₁)
    (h₂ : Canonical m₂ e₂) :
    e₁ + e₂ ≤ Format.binary64.targetExponent (totalExponent (m₁ * m₂) (e₁ + e₂)) := by
  have hpos₁ := h₁.pos
  have hpos₂ := h₂.pos
  have hbits : 2 ^ 52 ≤ m₁ ∨ 2 ^ 52 ≤ m₂ → 2 ^ 52 ≤ m₁ * m₂ := by
    rintro (h | h)
    · exact h.trans (Nat.le_mul_of_pos_right m₁ hpos₂)
    · exact h.trans (Nat.le_mul_of_pos_left m₂ hpos₁)
  rcases h₁.normal with hnormal | hleast₁
  · exact le_targetExponent (hbits (.inl hnormal)) _
  · rcases h₂.normal with hnormal | hleast₂
    · exact le_targetExponent (hbits (.inr hnormal)) _
    · rw [targetExponent_eq]
      omega

private theorem rounded_mul_unpacked (hu : Proper u) (hv : Proper v) :
    Rounded (unpackedValue u * unpackedValue v)
      (ofUnpacked (UnpackedFloat.mul Format.binary64 u v)) := by
  have hzero : ∀ sign, Rounded 0 (ofUnpacked (.zero sign)) := fun sign =>
    rounded_ofUnpacked (u := .zero sign) trivial
  cases u with
  | infinity | notANumber => exact hu.elim
  | zero s =>
    cases v with
    | infinity | notANumber => exact hv.elim
    | zero s' | finite s' => simpa [unpackedValue, UnpackedFloat.mul] using hzero (s * s')
  | finite s m₁ e₁ h₁ =>
    cases v with
    | infinity | notANumber => exact hv.elim
    | zero s' => simpa [unpackedValue, UnpackedFloat.mul] using hzero (s * s')
    | finite s' m₂ e₂ h₂ =>
      obtain ⟨w, hfaithful, hsigned⟩ := signed_roundWithAccuracy (approximates_product m₁ m₂ e₁ e₂)
        (le_targetExponent_product hu hv) (s * s')
      rw [unpackedValue_finite, unpackedValue_finite, withSign_mul]
      exact hsigned.rounded hfaithful

end Unpacked

variable {x y : Float}

private theorem mul_eq (x y : Float) :
    x * y = ofUnpacked (UnpackedFloat.mul Format.binary64 x.toModel.unpack y.toModel.unpack) := rfl

theorem rounded_mul (hx : x.isFinite = true) (hy : y.isFinite = true) :
    Rounded (value x * value y) (x * y) := by
  rw [mul_eq]
  exact rounded_mul_unpacked (proper_unpack hx) (proper_unpack hy)

theorem isFinite_of_add (h : (x + y).isFinite = true) : x.isFinite = true ∧ y.isFinite = true := by
  rw [add_eq] at h
  exact isFinite_of_add_unpacked (isFinite_of_ofUnpacked h)

theorem isFinite_of_sub (h : (x - y).isFinite = true) : x.isFinite = true ∧ y.isFinite = true := by
  rw [sub_eq] at h
  exact isFinite_of_sub_unpacked (isFinite_of_ofUnpacked h)

theorem isFinite_of_mul (h : (x * y).isFinite = true) : x.isFinite = true ∧ y.isFinite = true := by
  rw [mul_eq] at h
  exact isFinite_of_mul_unpacked (isFinite_of_ofUnpacked h)

theorem isFinite_of_neg (h : (-x).isFinite = true) : x.isFinite = true := by
  have hneg : x.toModel.unpack.neg.isFinite = true := isFinite_of_ofUnpacked h
  change x.toModel.unpack.isFinite = true
  cases hu : x.toModel.unpack with
  | zero | finite => rfl
  | notANumber | infinity => simp [hu, UnpackedFloat.neg, UnpackedFloat.isFinite] at hneg

/-- A quotient may be finite although the divisor is not: it is then zero. -/
theorem isFinite_of_div (h : (x / y).isFinite = true) : x.isFinite = true := by
  rw [div_eq] at h
  exact isFinite_of_div_unpacked (isFinite_of_ofUnpacked h)

theorem not_abs_lt (hx : x.isFinite = false) (y : Float) : ¬ x.abs < y := by
  have hmodel : x.abs < y ↔ x.abs.toModel.unpack.compare y.toModel.unpack = some .lt :=
    decide_eq_true_iff.trans beq_iff_eq
  have hfinite : x.toModel.unpack.isFinite = false := hx
  rw [hmodel, abs_eq]
  cases hu : x.toModel.unpack with
  | zero | finite =>
    rw [hu] at hfinite
    cases hfinite
  | notANumber =>
    simp only [UnpackedFloat.abs, unpack_ofUnpacked_notANumber]
    rintro ⟨⟩
  | infinity sign =>
    simp only [UnpackedFloat.abs, unpack_ofUnpacked_infinity]
    cases y.toModel.unpack with
    | infinity sign' => cases sign' <;> rintro ⟨⟩
    | notANumber | zero | finite => rintro ⟨⟩

theorem not_abs_lt_zero (x : Float) : ¬ x.abs < 0 := by
  cases hx : x.isFinite with
  | true =>
    rw [lt_iff_value_lt (isFinite_abs hx).1 (by decide)]
    exact not_lt.mpr (value_abs_nonneg x)
  | false => exact not_abs_lt hx 0

private theorem Faithful.nonneg_mul {q v : ℚ} (h : Faithful q v) {r : ℚ} (hr : 0 ≤ r * q) : 0 ≤ r * v := by
  rcases lt_trichotomy r 0 with hneg | rfl | hpos
  · exact mul_nonneg_of_nonpos_of_nonpos hneg.le
      (h.ge_of_ge representable_zero (nonpos_of_mul_nonneg_right hr hneg))
  · rw [zero_mul]
  · exact mul_nonneg hpos.le
      (h.le_of_le representable_zero (nonneg_of_mul_nonneg_right hr hpos))

theorem representable_one : Representable 1 := by
  simpa using representable_zpow (e := 0) (by norm_num)

theorem isFinite_quotient (hx : x.isFinite = true) (hy : y.isFinite = true) (hzero : value y ≠ 0)
    (hle : |value x| ≤ |value y|) : (x / y).isFinite = true ∧ |value (x / y)| ≤ 1 ∧
      0 ≤ value x * value y * value (x / y) := by
  have hquotient : |value x / value y| ≤ 1 := by
    rw [abs_div]
    exact div_le_one_of_le₀ hle (abs_nonneg _)
  have hrounded := rounded_div hx hy hzero
  have hfinite := hrounded.isFinite representable_one hquotient (one_lt_zpow₀ one_lt_two (by norm_num))
  obtain ⟨f, hfaithful, -, hvalue⟩ := hrounded
  rw [hvalue hfinite]
  refine ⟨hfinite, hfaithful.magnitude_le representable_one hquotient, hfaithful.nonneg_mul ?_⟩
  have hsquare : value x * value y * (value x / value y) = value x * value x := by
    field_simp
  rw [hsquare]
  exact mul_self_nonneg _

theorem product_within (hx : x.isFinite = true) (hy : y.isFinite = true) (hle : |value x| ≤ 1) :
    (x * y).isFinite = true ∧ |value (x * y)| ≤ |value y| := by
  obtain ⟨hrepresentable, hrange⟩ := representable_value hy
  apply (rounded_mul hx hy).within hrepresentable.abs _ hrange
  rw [abs_mul]
  exact mul_le_of_le_one_left (abs_nonneg _) hle

theorem difference_within {p : ℚ} (hx : x.isFinite = true) (hy : y.isFinite = true)
    (hp : Representable p) (hxp : |value x| ≤ p) (hyp : |value y| ≤ p) (hlt : 2 * p < 2 ^ (1024 : ℤ)) :
    (x - y).isFinite = true ∧ |value (x - y)| ≤ 2 * p := by
  apply (rounded_sub hx hy).within hp.double _ hlt
  calc
    |value x - value y| ≤ |value x| + |value y| := abs_sub _ _
    _ ≤ 2 * p := by linarith

theorem isFinite_cleared (hx : x.isFinite = true) (hy : y.isFinite = true) (hzero : value y ≠ 0)
    (hle : |value x| ≤ |value y|) : (x / y).isFinite = true ∧ (x / y * y).isFinite = true ∧
      (x - x / y * y).isFinite = true := by
  obtain ⟨hrepresentable, hrange⟩ := representable_value hy
  obtain ⟨hfactor, hfactor_le, hfactor_sign⟩ := isFinite_quotient hx hy hzero hle
  obtain ⟨hproduct, hproduct_le⟩ := product_within hfactor hy hfactor_le
  obtain ⟨p, hfaithful, -, hvalue⟩ := rounded_mul hfactor hy
  rw [hvalue hproduct] at hproduct_le
  -- The product has the sign of `x`, so the difference is no larger than the larger of the two.
  have hsign : 0 ≤ value x * p := hfaithful.nonneg_mul (by linarith)
  have hdifference : |value x - p| ≤ |value y| := by
    rw [abs_le] at hle hproduct_le ⊢
    rcases lt_trichotomy (value x) 0 with hneg | heq | hpos
    · have := nonpos_of_mul_nonneg_right hsign hneg
      constructor <;> linarith
    · constructor <;> linarith
    · have := nonneg_of_mul_nonneg_right hsign hpos
      constructor <;> linarith
  rw [← hvalue hproduct] at hdifference
  exact ⟨hfactor, hproduct, (rounded_sub hx hproduct).isFinite hrepresentable.abs hdifference hrange⟩

end EquationSolver.Floats
