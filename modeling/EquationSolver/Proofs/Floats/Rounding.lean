import EquationSolver.Proofs.Floats.Value

/-!
# Rounded numbers

What rounding keeps. A number is rounded to one of its two representable neighbours, and to itself if
it is representable; so a rounded number stays on its side of every float. It is infinite if the
exponent has no room.
-/

namespace EquationSolver.Floats

open Float.Model Float.Model.UnpackedFloat Decimal

/-- Whether a number has a mantissa of 53 bits. The exponent has no greatest value here. -/
def Representable (p : ℚ) : Prop :=
  ∃ n e : ℤ, |n| ≤ 2 ^ 53 ∧ -1074 ≤ e ∧ p = n * 2 ^ e

variable {p q v : ℚ}

theorem Representable.neg (h : Representable p) : Representable (-p) := by
  obtain ⟨n, e, hn, he, rfl⟩ := h
  refine ⟨-n, e, by rwa [abs_neg], he, ?_⟩
  push_cast
  ring

theorem Representable.abs (h : Representable p) : Representable |p| := by
  rcases abs_choice p with hp | hp
  · rwa [hp]
  · rw [hp]
    exact h.neg

theorem Representable.double (h : Representable p) : Representable (2 * p) := by
  obtain ⟨n, e, hn, he, rfl⟩ := h
  refine ⟨n, e + 1, hn, by omega, ?_⟩
  rw [zpow_add_one₀ (by norm_num)]
  ring

theorem representable_zero : Representable 0 :=
  ⟨0, 0, by norm_num, by norm_num, by simp⟩

theorem representable_zpow {e : ℤ} (he : -1074 ≤ e) : Representable (2 ^ e) :=
  ⟨1, e, by norm_num, he, by simp⟩

/-- A representable number lies on the grid of a power of two, unless it is small for that grid. -/
theorem Representable.grid (h : Representable p) (t : ℤ) :
    (∃ k : ℤ, p = k * 2 ^ t) ∨ p ≤ 2 ^ 52 * 2 ^ t ∧ -1074 < t := by
  obtain ⟨n, e, hn, he, rfl⟩ := h
  rcases le_or_gt t e with hle | hlt
  · left
    refine ⟨n * 2 ^ (e - t).toNat, ?_⟩
    have hexponent : e = (e - t).toNat + t := by omega
    push_cast
    rw [mul_assoc, ← zpow_natCast, ← zpow_add₀ (by norm_num), ← hexponent]
  · right
    have hn' : (n : ℚ) ≤ 2 ^ 53 := by exact_mod_cast le_trans (le_abs_self n) hn
    refine ⟨?_, by omega⟩
    calc
      (n * 2 ^ e : ℚ) ≤ 2 ^ 53 * 2 ^ (t - 1) := by
        apply mul_le_mul hn' (zpow_le_zpow_right₀ (by norm_num) (by omega)) (by positivity)
        norm_num
      _ = 2 ^ 52 * 2 ^ t := by rw [zpow_sub_one₀ (by norm_num)]; ring

/-- Whether a number is what another is rounded to, upwards or downwards. -/
structure Faithful (q v : ℚ) : Prop where
  representable : Representable v
  le_of_le : ∀ {p}, Representable p → p ≤ q → p ≤ v
  ge_of_ge : ∀ {p}, Representable p → q ≤ p → v ≤ p

theorem Faithful.neg (h : Faithful q v) : Faithful (-q) (-v) := by
  refine ⟨h.representable.neg, ?_, ?_⟩
  · intro p hp hle
    have := h.ge_of_ge hp.neg (by linarith)
    linarith
  · intro p hp hge
    have := h.le_of_le hp.neg (by linarith)
    linarith

theorem Representable.faithful (h : Representable q) : Faithful q q :=
  ⟨h, fun _ hle => hle, fun _ hge => hge⟩

theorem Faithful.eq_self (h : Faithful q v) (hq : Representable q) : v = q :=
  le_antisymm (h.ge_of_ge hq le_rfl) (h.le_of_le hq le_rfl)

theorem Faithful.magnitude_le (h : Faithful q v) (hp : Representable p) (hle : |q| ≤ p) : |v| ≤ p := by
  rw [abs_le] at hle ⊢
  exact ⟨h.le_of_le hp.neg hle.1, h.ge_of_ge hp hle.2⟩

theorem roundToNearestEven_bounds (below : Nat) (accuracy : Accuracy) :
    below ≤ accuracy.roundToNearestEven below ∧ accuracy.roundToNearestEven below ≤ below + 1 := by
  have := Nat.mod_lt below (by decide : 2 > 0)
  rcases accuracy with _ | (_ | _ | _) <;> simp only [Accuracy.roundToNearestEven] <;> omega

/-- Whether a number lies where an accuracy says above a mantissa of 53 bits, or of fewer if the exponent
is the least. -/
structure Placed (q : ℚ) (t : ℤ) (below : Nat) (accuracy : Accuracy) : Prop where
  approximates : Approximates below accuracy (q / 2 ^ t)
  least_le : -1074 ≤ t
  lt : below < 2 ^ 53
  normal : 2 ^ 52 ≤ below ∨ t = -1074

section Placed

variable {t : ℤ} {below : Nat} {accuracy : Accuracy}

theorem Placed.bounds (h : Placed q t below accuracy) :
    (below * 2 ^ t : ℚ) ≤ q ∧ q < (below + 1) * 2 ^ t := by
  have hunit : (0 : ℚ) < 2 ^ t := by positivity
  exact ⟨(le_div_iff₀ hunit).mp h.approximates.bounds.1, (div_lt_iff₀ hunit).mp h.approximates.bounds.2⟩

theorem Placed.le_or_ge (h : Placed q t below accuracy) (hp : Representable p) :
    p ≤ below * 2 ^ t ∨ (below + 1) * 2 ^ t ≤ p := by
  have hunit : (0 : ℚ) < 2 ^ t := by positivity
  rcases hp.grid t with ⟨k, rfl⟩ | ⟨hsmall, ht⟩
  · rcases le_or_gt k below with hle | hgt
    · left
      exact mul_le_mul_of_nonneg_right (by exact_mod_cast hle) hunit.le
    · right
      exact mul_le_mul_of_nonneg_right (by exact_mod_cast Int.add_one_le_iff.mpr hgt) hunit.le
  · left
    have hle : (2 ^ 52 : ℚ) ≤ below := by exact_mod_cast h.normal.resolve_right (by omega)
    exact le_trans hsmall (mul_le_mul_of_nonneg_right hle hunit.le)

/-- A number is rounded to a neighbour on the grid of its exponent, which is a representable one. -/
theorem Placed.faithful (h : Placed q t below accuracy) :
    Faithful q ((accuracy.roundToNearestEven below : Nat) * 2 ^ t) := by
  have hunit : (0 : ℚ) < 2 ^ t := by positivity
  obtain ⟨hlow, hhigh⟩ := h.bounds
  obtain ⟨hbelow, habove⟩ := roundToNearestEven_bounds below accuracy
  have hle : (below : ℚ) * 2 ^ t ≤ (accuracy.roundToNearestEven below : Nat) * 2 ^ t :=
    mul_le_mul_of_nonneg_right (by exact_mod_cast hbelow) hunit.le
  have hge : ((accuracy.roundToNearestEven below : Nat) * 2 ^ t : ℚ) ≤ (below + 1) * 2 ^ t :=
    mul_le_mul_of_nonneg_right (by exact_mod_cast habove) hunit.le
  refine ⟨⟨accuracy.roundToNearestEven below, t, ?_, h.least_le, by push_cast; rfl⟩, ?_, ?_⟩
  · rw [Nat.abs_cast]
    exact_mod_cast le_trans habove h.lt
  · intro p hp hpq
    rcases h.le_or_ge hp with hp' | hp' <;> linarith
  · intro p hp hqp
    by_cases hexact : accuracy = .exact
    · subst hexact
      have hq : q = below * 2 ^ t := (div_eq_iff hunit.ne').mp h.approximates
      rw [hq] at hqp
      exact hqp
    · have hstrict : (below : ℚ) * 2 ^ t < q := by
        rw [← lt_div_iff₀ hunit]
        have happroximates := h.approximates
        rcases accuracy with _ | (_ | _ | _)
        · exact absurd rfl hexact
        · exact happroximates.1
        · simp only [Approximates] at happroximates
          linarith
        · linarith [happroximates.1]
      rcases h.le_or_ge hp with hp' | hp' <;> linarith

end Placed

/-- Whether a float taken apart has a sign and a magnitude. Its exponent may be too great for a
float. -/
def Signed (sign : UnpackedFloat.Sign) (v : ℚ) (u : UnpackedFloat) : Prop :=
  u = .zero sign ∧ v = 0 ∨
    ∃ (M : Nat) (E : Int) (hM : 0 < M), u = .finite sign M E hM ∧ v = M * 2 ^ E ∧
      M < 2 ^ 53 ∧ -1074 ≤ E ∧ (2 ^ 52 ≤ M ∨ E = -1074)

/-- A rounded mantissa that has a bit too many is a power of two, and is shifted once more. -/
theorem signed_of_le {R : Nat} {t : Int} (hR : R ≤ 2 ^ 53) (hleast : -1074 ≤ t)
    (hnormal : 2 ^ 52 ≤ R ∨ t = -1074) (sign : UnpackedFloat.Sign) :
    Signed sign (R * 2 ^ t)
      (if h : (shiftToTargetExponent Format.binary64 R t .exact).1.mantissa = 0 then .zero sign
        else .finite sign (shiftToTargetExponent Format.binary64 R t .exact).1.mantissa
          (shiftToTargetExponent Format.binary64 R t .exact).2 (Nat.pos_of_ne_zero h)) := by
  rcases hR.lt_or_eq with hlt | rfl
  · simp only [shiftToTargetExponent_of_lt hlt hleast]
    split
    · next hzero => exact .inl ⟨rfl, by simp [hzero]⟩
    · next hzero => exact .inr ⟨R, t, Nat.pos_of_ne_zero hzero, rfl, rfl, hlt, hleast, hnormal⟩
  · have hdouble := shiftToTargetExponent_of_double (E := t + 1) (by omega)
    rw [add_sub_cancel_right] at hdouble
    simp only [hdouble]
    rw [dif_neg (by norm_num)]
    refine .inr ⟨2 ^ 52, t + 1, by positivity, rfl, ?_, by norm_num, by omega, .inl le_rfl⟩
    rw [zpow_add_one₀ (by norm_num)]
    push_cast
    ring

theorem exists_placed {m : Nat} {e : Int} {accuracy : Accuracy}
    (h : Approximates m accuracy (q / 2 ^ e))
    (he : e ≤ Format.binary64.targetExponent (totalExponent m e)) (sign : UnpackedFloat.Sign) :
    ∃ t below above, Placed q t below above ∧ Signed sign ((above.roundToNearestEven below : Nat) * 2 ^ t)
      (roundWithAccuracy Format.binary64 sign m e accuracy) := by
  obtain ⟨t, ht⟩ : ∃ t, Format.binary64.targetExponent (totalExponent m e) = t := ⟨_, rfl⟩
  obtain ⟨em, hshift, hem⟩ := h.shiftToTargetExponent ht (ht ▸ he)
  rw [targetExponent_eq] at ht he
  have hleast : -1074 ≤ t := by omega
  have hunit : (0 : ℚ) < 2 ^ t := by positivity
  have hunit' : (0 : ℚ) < 2 ^ e := by positivity
  have hlow := (le_div_iff₀ hunit').mp h.bounds.1
  have hhigh := (div_lt_iff₀ hunit').mp h.bounds.2
  have hlow' := (le_div_iff₀ hunit).mp hem.bounds.1
  have hhigh' := (div_lt_iff₀ hunit).mp hem.bounds.2
  have hlt : em.mantissa < 2 ^ 53 := by
    have hm : (m + 1 : ℚ) ≤ 2 ^ (m.log2 + 1) := by exact_mod_cast Nat.lt_log2_self (n := m)
    have hchain : (em.mantissa : ℚ) * 2 ^ t < 2 ^ 53 * 2 ^ t := calc
      (em.mantissa : ℚ) * 2 ^ t ≤ q := hlow'
      _ < (m + 1) * 2 ^ e := hhigh
      _ ≤ 2 ^ (m.log2 + 1) * 2 ^ e := mul_le_mul_of_nonneg_right hm hunit'.le
      _ = 2 ^ ((m.log2 + 1 : Nat) + e : ℤ) := by rw [zpow_add₀ (by norm_num), zpow_natCast]
      _ ≤ 2 ^ (53 + t) := zpow_le_zpow_right₀ (by norm_num) (by push_cast; omega)
      _ = 2 ^ 53 * 2 ^ t := by rw [zpow_add₀ (by norm_num)]; norm_num
    exact_mod_cast lt_of_mul_lt_mul_right hchain hunit.le
  have hnormal : 2 ^ 52 ≤ em.mantissa ∨ t = -1074 := by
    by_cases hm : m = 0
    · subst hm
      have : Nat.log2 0 = 0 := by decide
      right
      omega
    · by_cases ht' : t = -1074
      · exact .inr ht'
      · left
        have hm' : (2 ^ m.log2 : ℚ) ≤ m := by exact_mod_cast Nat.log2_self_le hm
        have hchain : (2 ^ 52 : ℚ) * 2 ^ t < (em.mantissa + 1) * 2 ^ t := calc
          (2 ^ 52 : ℚ) * 2 ^ t = 2 ^ (52 + t) := by rw [zpow_add₀ (by norm_num)]; norm_num
          _ = 2 ^ ((m.log2 : Nat) + e : ℤ) := by congr 1; omega
          _ = 2 ^ m.log2 * 2 ^ e := by rw [zpow_add₀ (by norm_num), zpow_natCast]
          _ ≤ m * 2 ^ e := mul_le_mul_of_nonneg_right hm' hunit'.le
          _ ≤ q := hlow
          _ < (em.mantissa + 1) * 2 ^ t := hhigh'
        have hlt' : 2 ^ 52 < em.mantissa + 1 := by
          exact_mod_cast lt_of_mul_lt_mul_right hchain hunit.le
        omega
  obtain ⟨hbelow, habove⟩ := roundToNearestEven_bounds em.mantissa em.accuracy
  have hsigned := signed_of_le (R := em.roundedMantissa) (t := t) (le_trans habove hlt) hleast
    (hnormal.imp (fun hge => le_trans hge hbelow) id) sign
  refine ⟨t, em.mantissa, em.accuracy, ⟨hem, hleast, hlt, hnormal⟩, ?_⟩
  simp only [roundWithAccuracy, hshift]
  exact hsigned

/-- A number is rounded faithfully from every mantissa that has enough bits. -/
theorem signed_roundWithAccuracy {m : Nat} {e : Int} {accuracy : Accuracy}
    (h : Approximates m accuracy (q / 2 ^ e))
    (he : e ≤ Format.binary64.targetExponent (totalExponent m e)) (sign : UnpackedFloat.Sign) :
    ∃ v, Faithful q v ∧ Signed sign v (roundWithAccuracy Format.binary64 sign m e accuracy) := by
  obtain ⟨t, below, above, hplaced, hsigned⟩ := exists_placed h he sign
  exact ⟨_, hplaced.faithful, hsigned⟩

/-- Whether a float is what a number is rounded to. It is infinite if the rounded number has too many
bits in front of the point. -/
def Rounded (q : ℚ) (x : Float) : Prop :=
  ∃ v, Faithful q v ∧ (x.isFinite = true ↔ |v| < 2 ^ (1024 : ℤ)) ∧ (x.isFinite = true → value x = v)

def ofUnpacked (u : UnpackedFloat) : Float :=
  .ofModel (.pack u)

def withSign : UnpackedFloat.Sign → ℚ → ℚ
  | .positive, q => q
  | .negative, q => -q

theorem abs_withSign (sign : UnpackedFloat.Sign) (q : ℚ) : |withSign sign q| = |q| := by
  cases sign with
  | positive => rfl
  | negative => exact abs_neg q

private theorem Faithful.withSign (h : Faithful q v) (sign : UnpackedFloat.Sign) :
    Faithful (withSign sign q) (withSign sign v) := by
  cases sign with
  | positive => exact h
  | negative => exact h.neg

theorem unpackedValue_finite {M : Nat} {E : Int} (hM : 0 < M) (sign : UnpackedFloat.Sign) :
    unpackedValue (.finite sign M E hM) = withSign sign (M * 2 ^ E) := by
  cases sign with
  | positive => exact unpackedValue_positive hM
  | negative => exact unpackedValue_negative hM

theorem unpack_packedInfinity (sign : UnpackedFloat.Sign) :
    UnpackedFloat.unpack Format.binary64 (packedInfinity Format.binary64 sign) = .infinity sign := by
  simp only [UnpackedFloat.unpack, packedInfinity, unpackExponent_packComponents,
    unpackMantissa_packComponents, unpackSign_packComponents, Sign.ofBitVec_toBitVec, if_pos]
  rfl

theorem pack_eq_packedInfinity {M : Nat} {E : Int} (hM : 0 < M) (hE : 971 < E)
    (sign : UnpackedFloat.Sign) :
    UnpackedFloat.pack Format.binary64 (.finite sign M E hM) = packedInfinity Format.binary64 sign := by
  have hlarge : 2 ^ 11 ≤ (E + 1075).toNat + 1 := by omega
  simp only [UnpackedFloat.pack, add_exponentBias, if_pos hlarge]

theorem lt_zpow_iff {M : Nat} {E : Int} (hlt : M < 2 ^ 53) (hnormal : 2 ^ 52 ≤ M ∨ E = -1074) :
    (M * 2 ^ E : ℚ) < 2 ^ (1024 : ℤ) ↔ E ≤ 971 := by
  constructor
  · intro h
    by_contra hE
    have hM : (2 ^ 52 : ℚ) ≤ M := by exact_mod_cast hnormal.resolve_right (by omega)
    have hchain : (2 : ℚ) ^ (1024 : ℤ) ≤ M * 2 ^ E := calc
      (2 : ℚ) ^ (1024 : ℤ) = 2 ^ 52 * 2 ^ (972 : ℤ) := by rw [← zpow_natCast, ← zpow_add₀] <;> norm_num
      _ ≤ 2 ^ 52 * 2 ^ E :=
        mul_le_mul_of_nonneg_left (zpow_le_zpow_right₀ (by norm_num) (by omega)) (by norm_num)
      _ ≤ M * 2 ^ E := mul_le_mul_of_nonneg_right hM (by positivity)
    linarith
  · intro hE
    have hM : (M : ℚ) < 2 ^ 53 := by exact_mod_cast hlt
    calc
      (M * 2 ^ E : ℚ) < 2 ^ 53 * 2 ^ E := mul_lt_mul_of_pos_right hM (by positivity)
      _ ≤ 2 ^ 53 * 2 ^ (971 : ℤ) :=
        mul_le_mul_of_nonneg_left (zpow_le_zpow_right₀ (by norm_num) hE) (by norm_num)
      _ = 2 ^ (1024 : ℤ) := by rw [← zpow_natCast, ← zpow_add₀] <;> norm_num

theorem Signed.rounded {sign : UnpackedFloat.Sign} {u : UnpackedFloat} (h : Faithful q v)
    (hu : Signed sign v u) : Rounded (withSign sign q) (ofUnpacked u) := by
  refine ⟨_, h.withSign sign, ?_⟩
  rw [abs_withSign]
  rcases hu with ⟨rfl, rfl⟩ | ⟨M, E, hM, rfl, rfl, hlt, hleast, hnormal⟩
  · have hunpack : (ofUnpacked (.zero sign)).toModel.unpack = .zero sign := unpack_packedZero
    simp only [Float.isFinite, Float.Model.isFinite, value, hunpack]
    cases sign <;> simp [UnpackedFloat.isFinite, unpackedValue, Floats.withSign]
  · have hpos : (0 : ℚ) ≤ M * 2 ^ E := by positivity
    rw [abs_of_nonneg hpos, lt_zpow_iff hlt hnormal]
    by_cases hE : E ≤ 971
    · have hunpack : (ofUnpacked (.finite sign M E hM)).toModel.unpack = .finite sign M E hM :=
        Canonical.unpack_pack ⟨hM, hlt, hleast, hE, hnormal⟩ sign
      simp only [Float.isFinite, Float.Model.isFinite, value, hunpack]
      exact ⟨⟨fun _ => hE, fun _ => rfl⟩, fun _ => unpackedValue_finite hM sign⟩
    · have hunpack : (ofUnpacked (.finite sign M E hM)).toModel.unpack = .infinity sign := by
        rw [← unpack_packedInfinity sign, ← pack_eq_packedInfinity hM (not_le.mp hE) sign]
        rfl
      simp only [Float.isFinite, Float.Model.isFinite, value, hunpack]
      simp [UnpackedFloat.isFinite, hE]

end EquationSolver.Floats
