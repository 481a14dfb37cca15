import EquationSolver.Proofs.Floats.Signs

/-!
# Widths of rounded numbers

How long the text of a float is that is rounded to a number of places. It grows with the number before
the point, so that a width bounds the numbers whose texts are shorter, and a sign takes one character.
-/

namespace EquationSolver.Decimal

open Float.Model Float.Model.UnpackedFloat Floats

/-- A quotient is rounded to less than an even number exactly if it is more than one half less. -/
theorem roundDiv_lt_iff {num den n : Nat} (hden : 0 < den) (heven : n % 2 = 0) :
    roundDiv num den .toEven < n ↔ 2 * num + den < 2 * n * den := by
  have hsplit := Nat.div_add_mod num den
  have hsmall := Nat.mod_lt num hden
  simp only [roundDiv]
  generalize num / den = below at *
  generalize num % den = rest at *
  have hdouble : 2 * n * den = 2 * (den * n) := by rw [Nat.mul_comm den n, Nat.mul_assoc]
  have hnext : den * (below + 1) = den * below + den := Nat.mul_succ den below
  rw [hdouble, ← hsplit]
  -- To be less than `n` is to have a multiple of the denominator that is less by one at least.
  have hsteps : ∀ a, a < n ∧ den * a + den ≤ den * n ∨ n ≤ a ∧ den * n ≤ den * a := by
    intro a
    rcases Nat.lt_or_ge a n with h | h
    · exact .inl ⟨h, Nat.mul_succ den a ▸ Nat.mul_le_mul_left den h⟩
    · exact .inr ⟨h, Nat.mul_le_mul_left den h⟩
  rcases Nat.lt_trichotomy (2 * rest) den with hc | hc | hc
  · rw [Nat.compare_eq_lt.mpr hc]
    dsimp only
    have := hsteps below
    omega
  · rw [Nat.compare_eq_eq.mpr hc]
    dsimp only
    have := hsteps (below + 1)
    omega
  · rw [Nat.compare_eq_gt.mpr hc]
    dsimp only
    have := hsteps (below + 1)
    omega

private theorem roundTo_lt_iff (M : Nat) (E p : Int) {n : Nat} (heven : n % 2 = 0) :
    roundTo M E p .toEven < n ↔ (M * 2 ^ E : ℚ) < (n - 1 / 2) * 10 ^ p := by
  have hshare := share_pos E p
  rw [roundTo, roundDiv_lt_iff (step_pos E p) heven]
  have hleft : ((2 * (M * unit E p) + step E p : Nat) : ℚ) * share E p =
      2 * (M * 2 ^ E) + 10 ^ p := by
    push_cast
    rw [← unit_mul_share E p, ← step_mul_share E p]
    ring
  have hright : ((2 * n * step E p : Nat) : ℚ) * share E p = 2 * n * 10 ^ p := by
    push_cast
    rw [← step_mul_share E p]
    ring
  rw [← Nat.cast_lt (α := ℚ), ← mul_lt_mul_iff_left₀ hshare, hleft, hright]
  constructor
  · intro h
    linarith
  · intro h
    linarith

private theorem length_fixedMagnitudeText {places : Nat} (hplaces : 0 < places) (M : Nat) (E : Int) :
    (fixedMagnitudeText places M E).length =
      max (places + 1) (Nat.toDigits 10 (roundTo M E (-places) .toEven)).length + 1 := by
  simp only [fixedMagnitudeText, if_neg hplaces.ne', List.length_append, List.length_take,
    List.length_cons, List.length_drop, List.length_leftpad]
  omega

/-- The least magnitude that has more than some digits in front of the point when it is rounded. -/
def widthBound (places whole : Nat) : ℚ :=
  10 ^ whole - 1 / (2 * 10 ^ places)

private theorem widthBound_pos (places whole : Nat) : 0 < widthBound places whole := by
  have hten : ∀ n : Nat, (1 : ℚ) ≤ 10 ^ n := fun n => one_le_pow₀ (by norm_num)
  have hhalf : 1 / (2 * 10 ^ places : ℚ) ≤ 1 / 2 :=
    one_div_le_one_div_of_le (by norm_num) (by linarith [hten places])
  rw [widthBound]
  linarith [hten whole]

private theorem length_fixedMagnitudeText_le_iff {places : Nat} (hplaces : 0 < places) (M : Nat) (E : Int)
    (more : Nat) :
    (fixedMagnitudeText places M E).length ≤ places + more + 2 ↔
      (M * 2 ^ E : ℚ) < widthBound places (more + 1) := by
  have hten : (10 : ℚ) ^ (-(places : Int)) = 1 / 10 ^ places := by
    rw [zpow_neg, zpow_natCast, one_div]
  have hbound : ((10 ^ (places + more + 1) : Nat) - 1 / 2 : ℚ) * 10 ^ (-(places : Int)) =
      widthBound places (more + 1) := by
    rw [hten, widthBound]
    push_cast
    field_simp
    ring
  have heven : 10 ^ (places + more + 1) % 2 = 0 := by
    rw [Nat.pow_succ]
    omega
  rw [length_fixedMagnitudeText hplaces, ← hbound, ← roundTo_lt_iff M E _ heven,
    ← Nat.length_toDigits_le_iff (by decide) (Nat.succ_pos _)]
  omega

/-! ## Signs -/

def signed (negative : Bool) (magnitude : ℚ) : ℚ :=
  if negative then -magnitude else magnitude

private theorem apply_ofBitVec (bit : BitVec 1) (M : Nat) :
    ((UnpackedFloat.Sign.ofBitVec bit).apply M : ℚ) = signed (bit.toNat % 2 == 1) M := by
  have hbit : bit = 0#1 ∨ bit = 1#1 := by
    revert bit
    decide
  rcases hbit with rfl | rfl
  · simp [UnpackedFloat.Sign.ofBitVec, UnpackedFloat.Sign.apply, signed]
  · simp [UnpackedFloat.Sign.ofBitVec, UnpackedFloat.Sign.apply, signed]

private theorem signed_mul (negative : Bool) (a b : ℚ) :
    signed negative a * b = signed negative (a * b) := by
  cases negative with
  | false => rfl
  | true => exact neg_mul a b

variable {x : Float} {negative : Bool} {M : Nat} {E : Int}

private theorem value_of_parts (h : Parts.ofFloat x = .finite negative M E) :
    x.isFinite = true ∧ value x = signed negative (M * 2 ^ E) := by
  change (UnpackedFloat.unpack Format.binary64 x.toBits.toBitVec).isFinite = true ∧
    unpackedValue (UnpackedFloat.unpack Format.binary64 x.toBits.toBitVec) = _
  simp only [Parts.ofFloat, Nat.pow_eq, UInt64.toNat, ← toNat_unpackSign, ← toNat_unpackMantissa,
    ← toNat_unpackExponent] at h
  simp only [UnpackedFloat.unpack, exponentBias_add]
  split at h
  · split at h <;> cases h
  · next hones =>
    rw [if_neg fun heq => hones (by rw [heq]; rfl)]
    split at h
    · next hzero =>
      rw [if_pos (BitVec.eq_of_toNat_eq hzero)]
      obtain ⟨rfl, rfl, rfl⟩ := Parts.finite.inj h
      split
      · next hnone =>
        refine ⟨rfl, ?_⟩
        rw [hnone]
        simp [unpackedValue, signed]
      · refine ⟨rfl, ?_⟩
        rw [unpackedValue, apply_ofBitVec, signed_mul, hzero]
        rfl
    · next hzero =>
      rw [if_neg fun heq => hzero (by rw [heq]; rfl)]
      obtain ⟨rfl, rfl, rfl⟩ := Parts.finite.inj h
      have hjoined : (1#1 ++ @unpackMantissa Format.binary64 x.toBits.toBitVec).toNat =
          2 ^ 52 + (@unpackMantissa Format.binary64 x.toBits.toBitVec).toNat :=
        toNat_leadingOne _
      refine ⟨rfl, ?_⟩
      rw [unpackedValue, apply_ofBitVec, signed_mul, hjoined]
      congr 3
      rw [leastExponent]
      omega

private theorem length_signedText (magnitude : Nat → Int → List Char)
    (h : Parts.ofFloat x = .finite negative M E) :
    (signedText magnitude x).toList.length = negative.toNat + (magnitude M E).length := by
  cases negative <;> simp [signedText, h, Nat.add_comm]

private theorem length_signedText_le (magnitude : Nat → Int → List Char) (h : x.isFinite = false) :
    (signedText magnitude x).toList.length ≤ 4 := by
  cases hparts : Parts.ofFloat x with
  | notANumber => simp [signedText, hparts, notANumberText]
  | infinite negative => cases negative <;> simp [signedText, hparts, infinityText]
  | finite =>
    rw [(value_of_parts hparts).1] at h
    cases h

/-- The floats whose texts leave room in a field. Of the negative ones a sign takes a digit's place. -/
theorem length_fixed_lt_iff {places whole : Nat} (hplaces : 0 < places) (hwhole : 0 < whole) (x : Float) :
    (fixed places x).toList.length < places + whole + 3 ↔ (x.isFinite = true →
      -widthBound places whole < value x ∧ value x < widthBound places (whole + 1)) := by
  cases hfinite : x.isFinite with
  | false =>
    have hlength : (fixed places x).toList.length ≤ 4 := length_signedText_le _ hfinite
    constructor
    · intro _ h
      cases h
    · intro _
      omega
  | true =>
    obtain ⟨M, E, hparts⟩ := exists_parts hfinite
    generalize (x.toBits.toNat / 2 ^ 63 % 2 == 1) = negative at hparts
    obtain ⟨more, rfl⟩ := Nat.exists_eq_succ_of_ne_zero hwhole.ne'
    have hmagnitude : (0 : ℚ) ≤ M * 2 ^ E := by positivity
    have hlow := widthBound_pos places (more + 1)
    have hhigh := widthBound_pos places (more + 1 + 1)
    rw [fixed, length_signedText _ hparts, (value_of_parts hparts).2]
    cases negative with
    | false =>
      have hfits := length_fixedMagnitudeText_le_iff hplaces M E (more + 1)
      rw [Bool.toNat_false, Nat.zero_add, signed, if_neg Bool.false_ne_true]
      constructor
      · intro h _
        exact ⟨by linarith, hfits.mp (Nat.lt_succ_iff.mp h)⟩
      · intro h
        exact Nat.lt_succ_iff.mpr (hfits.mpr (h rfl).2)
    | true =>
      have hfits := length_fixedMagnitudeText_le_iff hplaces M E more
      rw [Bool.toNat_true, signed, if_pos rfl, neg_lt_neg_iff]
      constructor
      · intro h _
        exact ⟨hfits.mp (by omega), by linarith⟩
      · intro h
        have := hfits.mpr (h rfl).1
        omega

/-! ## Characters -/

private theorem mem_fixedMagnitudeText {places : Nat} {c : Char} (h : c ∈ fixedMagnitudeText places M E) :
    c.isDigit = true ∨ c = '.' := by
  have hdigit : ∀ n w, c ∈ (Nat.toDigits 10 n).leftpad w '0' → c.isDigit = true := by
    intro n w hc
    rcases List.mem_append.mp hc with hc | hc
    · rw [List.eq_of_mem_replicate hc]
      decide
    · exact Nat.isDigit_of_mem_toDigits (by decide) (by decide) hc
  simp only [fixedMagnitudeText] at h
  rcases List.mem_append.mp h with hc | hc
  · exact .inl (hdigit _ _ (List.mem_of_mem_take hc))
  · split at hc
    · cases hc
    · rcases List.mem_cons.mp hc with rfl | hc
      · exact .inr rfl
      · exact .inl (hdigit _ _ (List.mem_of_mem_drop hc))

theorem mem_fixed {places : Nat} {c : Char} (h : c ∈ (fixed places x).toList) :
    45 ≤ c.toNat ∧ c.toNat ≤ 122 := by
  cases hparts : Parts.ofFloat x with
  | notANumber =>
    have htext : (fixed places x).toList = ['N', 'a', 'N'] := by
      simp [fixed, signedText, hparts, notANumberText]
    have hname : ∀ c ∈ ['N', 'a', 'N'], 45 ≤ c.toNat ∧ c.toNat ≤ 122 := by simp
    exact hname c (htext ▸ h)
  | infinite negative =>
    have htext : (fixed places x).toList = (if negative then ['-'] else []) ++ ['i', 'n', 'f'] := by
      cases negative <;> simp [fixed, signedText, hparts, infinityText]
    have hname : ∀ c ∈ (if negative then ['-'] else []) ++ ['i', 'n', 'f'],
        45 ≤ c.toNat ∧ c.toNat ≤ 122 := by cases negative <;> simp
    exact hname c (htext ▸ h)
  | finite negative M E =>
    have htext : (fixed places x).toList =
        (if negative then ['-'] else []) ++ fixedMagnitudeText places M E := by
      simp [fixed, signedText, hparts]
    have hminus : ∀ c ∈ if negative then ['-'] else [], 45 ≤ c.toNat ∧ c.toNat ≤ 122 := by
      cases negative <;> simp
    rw [htext] at h
    rcases List.mem_append.mp h with hc | hc
    · exact hminus c hc
    · rcases mem_fixedMagnitudeText hc with hdigit | rfl
      · have hrange : 48 ≤ c.toNat ∧ c.toNat ≤ 57 := Char.isDigit_iff_toNat.mp hdigit
        omega
      · decide

theorem fixed_ne_nil {places : Nat} (hplaces : 0 < places) (x : Float) : (fixed places x).toList ≠ [] := by
  cases hparts : Parts.ofFloat x with
  | notANumber => simp [fixed, signedText, hparts, notANumberText]
  | infinite negative => simp [fixed, signedText, hparts, infinityText]
  | finite negative M E =>
    apply List.ne_nil_of_length_pos
    rw [fixed, length_signedText _ hparts, length_fixedMagnitudeText hplaces]
    omega

end EquationSolver.Decimal
