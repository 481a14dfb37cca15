import EquationSolver.Proofs.Floats.Rounding

/-!
# Sums, differences and quotients of floats

The operations on finite floats round the exact result.
-/

namespace EquationSolver.Floats

open Float.Model Float.Model.UnpackedFloat Decimal

section Unpacked

variable {u v : UnpackedFloat}

private theorem Proper.representable (hu : Proper u) :
    Representable (unpackedValue u) ∧ |unpackedValue u| < 2 ^ (1024 : ℤ) := by
  cases u with
  | infinity | notANumber => exact hu.elim
  | zero => exact ⟨representable_zero, by simp [unpackedValue]⟩
  | finite sign M E hM =>
    have hc : Canonical M E := hu
    have hpos : (0 : ℚ) ≤ M * 2 ^ E := by positivity
    have hM' : Representable (M * 2 ^ E) :=
      ⟨M, E, by rw [Nat.abs_cast]; exact_mod_cast hc.lt.le, hc.least_le, by push_cast; rfl⟩
    rw [unpackedValue_finite hM, abs_withSign, abs_of_nonneg hpos]
    refine ⟨?_, (lt_zpow_iff hc.lt hc.normal).mpr hc.le_greatest⟩
    cases sign with
    | positive => exact hM'
    | negative => exact hM'.neg

theorem unpack_ofUnpacked (hu : Proper u) : (ofUnpacked u).toModel.unpack = u := by
  cases u with
  | infinity | notANumber => exact hu.elim
  | zero => exact unpack_packedZero
  | finite sign M E hM => exact Canonical.unpack_pack hu sign

theorem isFinite_of_proper (hu : Proper u) : (ofUnpacked u).isFinite = true := by
  simp only [Float.isFinite, Float.Model.isFinite, unpack_ofUnpacked hu]
  cases u with
  | infinity | notANumber => exact hu.elim
  | zero | finite => rfl

theorem rounded_ofUnpacked (hu : Proper u) : Rounded (unpackedValue u) (ofUnpacked u) := by
  obtain ⟨hrepresentable, hlt⟩ := hu.representable
  refine ⟨_, hrepresentable.faithful, ?_⟩
  rw [value, unpack_ofUnpacked hu]
  exact ⟨⟨fun _ => hlt, fun _ => isFinite_of_proper hu⟩, fun _ => rfl⟩

private theorem rounded_round {m : Nat} {e : Int} (hm : 0 < m) (sign : UnpackedFloat.Sign) :
    Rounded (withSign sign (m * 2 ^ e))
      (ofUnpacked (UnpackedFloat.round Format.binary64 sign m e)) := by
  obtain ⟨k, hk⟩ : ∃ k, (e - Format.binary64.targetExponent (totalExponent m e)).toNat = k := ⟨_, rfl⟩
  have hlog : (m <<< k).log2 = m.log2 + k := by
    rw [Nat.log2_eq_iff (by rw [Nat.shiftLeft_eq]; positivity), Nat.shiftLeft_eq]
    have hlow := Nat.log2_self_le hm.ne'
    have hhigh := Nat.lt_log2_self (n := m)
    constructor
    · rw [pow_add]
      exact Nat.mul_le_mul_right _ hlow
    · rw [add_right_comm, pow_add]
      exact Nat.mul_lt_mul_of_pos_right hhigh (by positivity)
  have hvalue : (m * 2 ^ e : ℚ) / 2 ^ (e - k) = (m <<< k : Nat) := by
    rw [div_eq_iff (by positivity), Nat.shiftLeft_eq]
    push_cast
    rw [mul_assoc, ← zpow_natCast, ← zpow_add₀ (by norm_num)]
    congr 2
    omega
  have hexact : Approximates (m <<< k) .exact ((m * 2 ^ e : ℚ) / 2 ^ (e - k)) := hvalue
  have htarget : e - k ≤ Format.binary64.targetExponent (totalExponent (m <<< k) (e - k)) := by
    rw [targetExponent_eq] at hk ⊢
    rw [hlog]
    push_cast
    omega
  obtain ⟨w, hfaithful, hsigned⟩ := signed_roundWithAccuracy hexact htarget sign
  have hround : UnpackedFloat.round Format.binary64 sign m e =
      roundWithAccuracy Format.binary64 sign (m <<< k) (e - k) .exact := by
    simp only [UnpackedFloat.round, decreaseExponent, hk]
  rw [hround]
  exact hsigned.rounded hfaithful

private theorem rounded_normalize (m e : Int) (zeroSign : UnpackedFloat.Sign) :
    Rounded (m * 2 ^ e) (ofUnpacked (UnpackedFloat.normalize Format.binary64 m e zeroSign)) := by
  rcases lt_trichotomy m 0 with hm | rfl | hm
  · have hcompare : compare m 0 = .lt := Int.compare_eq_lt.mpr hm
    have habs : (m : ℚ) = -((-m).toNat : ℚ) := by
      exact_mod_cast (by omega : m = -((-m).toNat : ℤ))
    have hround := rounded_round (m := (-m).toNat) (e := e) (by omega) .negative
    simp only [UnpackedFloat.normalize, hcompare]
    rw [habs, neg_mul]
    exact hround
  · have hzero := rounded_ofUnpacked (u := .zero zeroSign) trivial
    simpa [UnpackedFloat.normalize, unpackedValue] using hzero
  · have hcompare : compare m 0 = .gt := Int.compare_eq_gt.mpr hm
    have habs : (m : ℚ) = (m.toNat : ℚ) := by
      exact_mod_cast (by omega : m = (m.toNat : ℤ))
    have hround := rounded_round (m := m.toNat) (e := e) (by omega) .positive
    simp only [UnpackedFloat.normalize, hcompare]
    rw [habs]
    exact hround

private theorem apply_decreaseExponent (sign : UnpackedFloat.Sign) {m : Nat} {e t : Int} (hm : 0 < m)
    (ht : t ≤ e) :
    (sign.apply (decreaseExponent m e t).1 : ℤ) * (2 : ℚ) ^ t = unpackedValue (.finite sign m e hm) := by
  have hexponent : e = (e - t).toNat + t := by omega
  have hshift : ((m <<< (e - t).toNat : Nat) : ℚ) * 2 ^ t = m * 2 ^ e := by
    rw [Nat.shiftLeft_eq]
    push_cast
    rw [mul_assoc, ← zpow_natCast, ← zpow_add₀ (by norm_num), ← hexponent]
  simp only [decreaseExponent]
  generalize m <<< (e - t).toNat = n at *
  cases sign with
  | positive =>
    rw [unpackedValue_positive, ← hshift]
    simp [UnpackedFloat.Sign.apply]
  | negative =>
    rw [unpackedValue_negative, ← hshift]
    simp [UnpackedFloat.Sign.apply]

private theorem rounded_add_unpacked (hu : Proper u) (hv : Proper v) :
    Rounded (unpackedValue u + unpackedValue v)
      (ofUnpacked (UnpackedFloat.add Format.binary64 u v)) := by
  cases u with
  | infinity | notANumber => exact hu.elim
  | zero s =>
    cases v with
    | infinity | notANumber => exact hv.elim
    | zero s' =>
      have hzero : Proper (UnpackedFloat.add Format.binary64 (.zero s) (.zero s')) ∧
          unpackedValue (UnpackedFloat.add Format.binary64 (.zero s) (.zero s')) = 0 := by
        cases s <;> cases s' <;> exact ⟨trivial, rfl⟩
      have := rounded_ofUnpacked hzero.1
      rw [hzero.2] at this
      simpa [unpackedValue] using this
    | finite => simpa [unpackedValue, UnpackedFloat.add] using rounded_ofUnpacked hv
  | finite s m e hm =>
    cases v with
    | infinity | notANumber => exact hv.elim
    | zero => simpa [unpackedValue, UnpackedFloat.add] using rounded_ofUnpacked hu
    | finite s' n f hn =>
      rw [← apply_decreaseExponent s hm (min_le_left e f),
        ← apply_decreaseExponent s' hn (min_le_right e f), ← add_mul]
      simp only [UnpackedFloat.add]
      have := rounded_normalize
        (s.apply (decreaseExponent m e (min e f)).1 + s'.apply (decreaseExponent n f (min e f)).1)
        (min e f) .positive
      push_cast at this
      exact this

theorem Proper.neg (hu : Proper u) : Proper u.neg := by
  cases u with
  | infinity | notANumber => exact hu.elim
  | zero => trivial
  | finite => exact hu

theorem unpackedValue_neg (u : UnpackedFloat) : unpackedValue u.neg = -unpackedValue u := by
  cases u with
  | infinity | notANumber | zero => simp [UnpackedFloat.neg, unpackedValue]
  | finite s m e hm =>
    cases s with
    | positive => rw [unpackedValue_positive]; exact unpackedValue_negative hm
    | negative => rw [unpackedValue_negative, neg_neg]; exact unpackedValue_positive hm

private theorem sub_eq_add (hu : Proper u) (hv : Proper v) :
    UnpackedFloat.sub Format.binary64 u v = UnpackedFloat.add Format.binary64 u v.neg := by
  cases u with
  | infinity | notANumber => exact hu.elim
  | zero =>
    cases v with
    | infinity | notANumber => exact hv.elim
    | zero | finite => rfl
  | finite =>
    cases v with
    | infinity | notANumber => exact hv.elim
    | zero => rfl
    | finite s' n f hn =>
      cases s' with
      | positive =>
        simp only [UnpackedFloat.sub, UnpackedFloat.neg, UnpackedFloat.add, Int.sub_eq_add_neg]
        rfl
      | negative =>
        simp only [UnpackedFloat.sub, UnpackedFloat.neg, UnpackedFloat.add,
          UnpackedFloat.Sign.apply, Int.sub_neg]

private theorem withSign_div (s s' : UnpackedFloat.Sign) (p q : ℚ) :
    withSign s p / withSign s' q = withSign (s / s') (p / q) := by
  cases s <;> cases s'
  · exact neg_div_neg_eq p q
  · exact neg_div q p
  · exact div_neg p
  · rfl

private theorem rounded_div_unpacked (hu : Proper u) (hv : Proper v) (hzero : unpackedValue v ≠ 0) :
    Rounded (unpackedValue u / unpackedValue v)
      (ofUnpacked (UnpackedFloat.div Format.binary64 u v)) := by
  cases v with
  | infinity | notANumber => exact hv.elim
  | zero => exact absurd rfl hzero
  | finite s' m₂ e₂ h₂ =>
    cases u with
    | infinity | notANumber => exact hu.elim
    | zero s =>
      have := rounded_ofUnpacked (u := .zero (s / s')) trivial
      simpa [unpackedValue, UnpackedFloat.div] using this
    | finite s m₁ e₁ h₁ =>
      obtain ⟨t, ht⟩ : ∃ t, t = min (e₁ - e₂)
        (Format.binary64.targetExponent (totalExponent m₁ e₁ - totalExponent m₂ e₂)) := ⟨_, rfl⟩
      obtain ⟨w, hfaithful, hsigned⟩ := signed_roundWithAccuracy
        (approximates_quotient h₂ (by omega)) (le_targetExponent_quotient h₁ h₂ ht) (s / s')
      rw [unpackedValue_finite, unpackedValue_finite, withSign_div]
      simp only [UnpackedFloat.div, divCore, ← ht]
      exact hsigned.rounded hfaithful

end Unpacked

variable {x y : Float}

theorem add_eq (x y : Float) :
    x + y = ofUnpacked (UnpackedFloat.add Format.binary64 x.toModel.unpack y.toModel.unpack) := rfl

theorem sub_eq (x y : Float) :
    x - y = ofUnpacked (UnpackedFloat.sub Format.binary64 x.toModel.unpack y.toModel.unpack) := rfl

theorem div_eq (x y : Float) :
    x / y = ofUnpacked (UnpackedFloat.div Format.binary64 x.toModel.unpack y.toModel.unpack) := rfl

theorem rounded_add (hx : x.isFinite = true) (hy : y.isFinite = true) :
    Rounded (value x + value y) (x + y) := by
  rw [add_eq]
  exact rounded_add_unpacked (proper_unpack hx) (proper_unpack hy)

theorem rounded_sub (hx : x.isFinite = true) (hy : y.isFinite = true) :
    Rounded (value x - value y) (x - y) := by
  have hadd := rounded_add_unpacked (proper_unpack hx) (proper_unpack hy).neg
  rw [unpackedValue_neg, ← sub_eq_add_neg] at hadd
  rw [sub_eq, sub_eq_add (proper_unpack hx) (proper_unpack hy)]
  exact hadd

theorem rounded_div (hx : x.isFinite = true) (hy : y.isFinite = true) (hzero : value y ≠ 0) :
    Rounded (value x / value y) (x / y) := by
  rw [div_eq]
  exact rounded_div_unpacked (proper_unpack hx) (proper_unpack hy) hzero

private theorem unpack_two :
    (2.0 : Float).toModel.unpack = .finite .positive (2 ^ 52) (-51) (by positivity) := rfl

private theorem value_two : value 2.0 = 2 := by
  rw [value, unpack_two, unpackedValue_positive]
  norm_num

theorem rounded_half (hx : x.isFinite = true) : Rounded (value x / 2) (x / 2.0) := by
  have hdiv := rounded_div hx (by decide : (2.0 : Float).isFinite = true) (by
    rw [value_two]
    norm_num)
  rwa [value_two] at hdiv

theorem unpack_ofUnpacked_notANumber : (ofUnpacked .notANumber).toModel.unpack = .notANumber :=
  unpack_packedNaN

theorem unpack_ofUnpacked_infinity (sign : UnpackedFloat.Sign) :
    (ofUnpacked (.infinity sign)).toModel.unpack = .infinity sign :=
  unpack_packedInfinity sign

theorem isFinite_half_eq_false (hx : x.isFinite = false) : (x / 2.0).isFinite = false := by
  have hfinite : x.toModel.unpack.isFinite = false := hx
  rw [div_eq, unpack_two]
  cases hu : x.toModel.unpack with
  | zero | finite =>
    rw [hu] at hfinite
    cases hfinite
  | notANumber =>
    simp only [UnpackedFloat.div, Float.isFinite, Float.Model.isFinite, unpack_ofUnpacked_notANumber]
    rfl
  | infinity sign =>
    simp only [UnpackedFloat.div, Float.isFinite, Float.Model.isFinite, unpack_ofUnpacked_infinity]
    rfl

theorem abs_eq (x : Float) : x.abs = ofUnpacked x.toModel.unpack.abs := rfl

private theorem Proper.abs {u : UnpackedFloat} (hu : Proper u) :
    Proper u.abs ∧ unpackedValue u.abs = |unpackedValue u| := by
  cases u with
  | infinity | notANumber => exact hu.elim
  | zero => exact ⟨trivial, by simp [UnpackedFloat.abs, unpackedValue]⟩
  | finite sign M E hM =>
    have hpos : (0 : ℚ) ≤ M * 2 ^ E := by positivity
    refine ⟨hu, ?_⟩
    rw [unpackedValue_finite hM, abs_withSign, abs_of_nonneg hpos]
    exact unpackedValue_positive hM

theorem isFinite_abs (hx : x.isFinite = true) : x.abs.isFinite = true ∧ value x.abs = |value x| := by
  obtain ⟨hproper, hvalue⟩ := (proper_unpack hx).abs
  rw [abs_eq]
  refine ⟨isFinite_of_proper hproper, ?_⟩
  rw [value, unpack_ofUnpacked hproper, hvalue]
  rfl

theorem value_abs_nonneg (x : Float) : 0 ≤ value x.abs := by
  cases hx : x.isFinite with
  | true =>
    rw [(isFinite_abs hx).2]
    exact abs_nonneg _
  | false =>
    have hfinite : x.toModel.unpack.isFinite = false := hx
    rw [abs_eq, value]
    cases hu : x.toModel.unpack with
    | zero | finite =>
      rw [hu] at hfinite
      cases hfinite
    | notANumber =>
      simp only [UnpackedFloat.abs, unpack_ofUnpacked_notANumber, unpackedValue, le_refl]
    | infinity sign =>
      simp only [UnpackedFloat.abs, unpack_ofUnpacked_infinity, unpackedValue, le_refl]

theorem representable_value (hx : x.isFinite = true) :
    Representable (value x) ∧ |value x| < 2 ^ (1024 : ℤ) :=
  (proper_unpack hx).representable

theorem Rounded.within {p q : ℚ} (h : Rounded q x) (hp : Representable p) (hle : |q| ≤ p)
    (hlt : p < 2 ^ (1024 : ℤ)) : x.isFinite = true ∧ |value x| ≤ p := by
  obtain ⟨v, hfaithful, hfinite, hvalue⟩ := h
  have hv := hfaithful.magnitude_le hp hle
  have hx := hfinite.mpr (lt_of_le_of_lt hv hlt)
  rw [hvalue hx]
  exact ⟨hx, hv⟩

theorem Rounded.isFinite {p q : ℚ} (h : Rounded q x) (hp : Representable p) (hle : |q| ≤ p)
    (hlt : p < 2 ^ (1024 : ℤ)) : x.isFinite = true :=
  (h.within hp hle hlt).1

theorem Rounded.exact {q : ℚ} (h : Rounded q x) (hq : Representable q) (hlt : |q| < 2 ^ (1024 : ℤ)) :
    x.isFinite = true ∧ value x = q := by
  obtain ⟨v, hfaithful, hfinite, hvalue⟩ := h
  obtain rfl := hfaithful.eq_self hq
  have hx := hfinite.mpr hlt
  exact ⟨hx, hvalue hx⟩

end EquationSolver.Floats
