import EquationSolver.Proofs.Decimal.ReadBack
import EquationSolver.Proofs.Floats.Arithmetic

/-!
# Signs of floats

A finite float and its opposite have the same bits but for the sign, and the same text but for the
minus in front of one of them.
-/

namespace EquationSolver.Floats

open Float.Model Float.Model.UnpackedFloat Decimal

section Bits

variable (bits : BitVec 64)

theorem toNat_unpackSign : (@unpackSign Format.binary64 bits).toNat = bits.toNat / 2 ^ 63 := by
  have hlt := bits.isLt
  simp [unpackSign, BitVec.extractLsb_toNat, Nat.shiftRight_eq_div_pow]
  omega

theorem toNat_unpackMantissa :
    (@unpackMantissa Format.binary64 bits).toNat = bits.toNat % 2 ^ 52 := by
  simp [unpackMantissa, BitVec.extractLsb_toNat]

private theorem packComponents_unpack :
    packComponents Format.binary64 (.ofBitVec (@unpackSign Format.binary64 bits))
      (@unpackExponent Format.binary64 bits) (@unpackMantissa Format.binary64 bits) = bits := by
  have hsign : ∀ b : BitVec 1, (UnpackedFloat.Sign.ofBitVec b).toBitVec = b := by decide
  apply BitVec.eq_of_toNat_eq
  rw [toNat_packComponents, hsign, toNat_unpackSign, toNat_unpackExponent, toNat_unpackMantissa]
  have hlt := bits.isLt
  change bits.toNat < 2 ^ 64 at hlt
  omega

private theorem components_of_unpack {sign : UnpackedFloat.Sign} {M : Nat} {E : Int} {hM : 0 < M}
    (h : UnpackedFloat.unpack Format.binary64 bits = .finite sign M E hM) :
    UnpackedFloat.Sign.ofBitVec (@unpackSign Format.binary64 bits) = sign ∧
      @unpackExponent Format.binary64 bits =
        (if 2 ^ 52 ≤ M then BitVec.ofNat 11 (E + 1075).toNat else 0#11) ∧
      @unpackMantissa Format.binary64 bits = BitVec.ofNat 52 M := by
  have hmantissa := (@unpackMantissa Format.binary64 bits).isLt
  have hexponent := (@unpackExponent Format.binary64 bits).isLt
  change (@unpackMantissa Format.binary64 bits).toNat < 2 ^ 52 at hmantissa
  simp only [UnpackedFloat.unpack, exponentBias_add] at h
  split at h
  · split at h <;> cases h
  · split at h
    · next hzero =>
      split at h
      · cases h
      · simp only [UnpackedFloat.finite.injEq] at h
        obtain ⟨rfl, rfl, -⟩ := h
        rw [if_neg (by omega)]
        refine ⟨rfl, hzero, BitVec.eq_of_toNat_eq ?_⟩
        exact (Nat.mod_eq_of_lt hmantissa).symm
    · have hjoined : (1#1 ++ @unpackMantissa Format.binary64 bits).toNat =
          2 ^ 52 + (@unpackMantissa Format.binary64 bits).toNat :=
        toNat_leadingOne _
      simp only [UnpackedFloat.finite.injEq] at h
      obtain ⟨rfl, rfl, rfl⟩ := h
      rw [hjoined, if_pos (by omega)]
      refine ⟨rfl, ?_, ?_⟩
      · apply BitVec.eq_of_toNat_eq
        rw [BitVec.toNat_ofNat, Int.sub_add_cancel, Int.toNat_natCast]
        exact (Nat.mod_eq_of_lt hexponent).symm
      · apply BitVec.eq_of_toNat_eq
        rw [BitVec.toNat_ofNat, Nat.add_mod_left]
        exact (Nat.mod_eq_of_lt hmantissa).symm

private theorem components_of_unpack_zero {sign : UnpackedFloat.Sign}
    (h : UnpackedFloat.unpack Format.binary64 bits = .zero sign) :
    UnpackedFloat.Sign.ofBitVec (@unpackSign Format.binary64 bits) = sign ∧
      @unpackExponent Format.binary64 bits = 0#11 ∧ @unpackMantissa Format.binary64 bits = 0#52 := by
  simp only [UnpackedFloat.unpack] at h
  split at h
  · split at h <;> cases h
  · split at h
    · next hzero =>
      split at h
      · next hmantissa =>
        obtain rfl := UnpackedFloat.zero.inj h
        exact ⟨rfl, hzero, hmantissa⟩
      · cases h
    · cases h

private theorem pack_unpack (h : (UnpackedFloat.unpack Format.binary64 bits).isFinite = true) :
    UnpackedFloat.pack Format.binary64 (UnpackedFloat.unpack Format.binary64 bits) = bits := by
  cases hu : UnpackedFloat.unpack Format.binary64 bits with
  | notANumber | infinity =>
    rw [hu] at h
    cases h
  | zero sign =>
    obtain ⟨hsign, hexponent, hmantissa⟩ := components_of_unpack_zero bits hu
    have hcomponents := packComponents_unpack bits
    rwa [hsign, hexponent, hmantissa] at hcomponents
  | finite sign M E hM =>
    obtain ⟨hsign, hexponent, hmantissa⟩ := components_of_unpack bits hu
    rw [Canonical.pack_eq (canonical_of_unpack hu), ← hsign, ← hexponent, ← hmantissa]
    exact packComponents_unpack bits

end Bits

variable {x : Float}

theorem ofUnpacked_unpack (h : x.isFinite = true) : ofUnpacked x.toModel.unpack = x := by
  apply Float.toBits_inj.mp
  exact congrArg UInt64.ofBitVec (pack_unpack x.toBits.toBitVec h)

private theorem neg_eq (x : Float) : -x = ofUnpacked x.toModel.unpack.neg := rfl

theorem isFinite_neg (h : x.isFinite = true) : (-x).isFinite = true := by
  rw [neg_eq]
  exact isFinite_of_proper (proper_unpack h).neg

theorem value_neg (h : x.isFinite = true) : value (-x) = -value x := by
  rw [neg_eq, value, unpack_ofUnpacked (proper_unpack h).neg, unpackedValue_neg]
  rfl

theorem neg_neg_of_isFinite (h : x.isFinite = true) : - -x = x := by
  have hneg : ∀ u : UnpackedFloat, u.neg.neg = u := by
    intro u
    cases u with
    | notANumber => rfl
    | infinity s | zero s | finite s => cases s <;> rfl
  rw [neg_eq (-x), neg_eq x, unpack_ofUnpacked (proper_unpack h).neg, hneg, ofUnpacked_unpack h]

private theorem exists_components {u : UnpackedFloat} (hu : Proper u) :
    ∃ (sign : UnpackedFloat.Sign) (exponent : BitVec 11) (mantissa : BitVec 52),
      UnpackedFloat.pack Format.binary64 u =
          packComponents Format.binary64 sign exponent mantissa ∧
        UnpackedFloat.pack Format.binary64 u.neg =
          packComponents Format.binary64 (-sign) exponent mantissa := by
  cases u with
  | infinity | notANumber => exact hu.elim
  | zero sign => exact ⟨sign, 0#11, 0#52, rfl, rfl⟩
  | finite sign M E hM =>
    exact ⟨sign, _, _, Canonical.pack_eq hu sign, Canonical.pack_eq hu (-sign)⟩

private theorem toNat_toBits_eq (h : x.isFinite = true) :
    x.toBits.toNat = (UnpackedFloat.pack Format.binary64 x.toModel.unpack).toNat :=
  congrArg BitVec.toNat (pack_unpack x.toBits.toBitVec h).symm

private theorem toNat_toBits_neg (h : x.isFinite = true) (hsign : 2 ^ 63 ≤ x.toBits.toNat) :
    x.toBits.toNat = 2 ^ 63 + (-x).toBits.toNat := by
  obtain ⟨sign, exponent, mantissa, hpack, hneg⟩ := exists_components (proper_unpack h)
  have hbits : (-x).toBits.toNat = (UnpackedFloat.pack Format.binary64 x.toModel.unpack.neg).toNat := rfl
  have hexponent := exponent.isLt
  have hmantissa := mantissa.isLt
  rw [toNat_toBits_eq h, hpack, toNat_packComponents] at hsign ⊢
  rw [hbits, hneg, toNat_packComponents]
  cases sign with
  | negative =>
    change 1 * 2 ^ 63 + _ + _ = 2 ^ 63 + (0 * 2 ^ 63 + _ + _)
    omega
  | positive =>
    change 2 ^ 63 ≤ 0 * 2 ^ 63 + _ + _ at hsign
    omega

theorem unsigned_neg (h : x.isFinite = true) (hsign : 2 ^ 63 ≤ x.toBits.toNat) : Unsigned (-x) := by
  have hbits := toNat_toBits_neg h hsign
  have hlt := x.toBits.toNat_lt
  exact ⟨isFinite_neg h, by omega⟩

theorem text_of_negative (h : x.isFinite = true) (hsign : 2 ^ 63 ≤ x.toBits.toNat) :
    (Decimal.text x).toList = '-' :: (Decimal.text (-x)).toList := by
  obtain ⟨M, E, hparts⟩ := (unsigned_neg h hsign).exists_parts
  have hbits := toNat_toBits_neg h hsign
  have hlt := (unsigned_neg h hsign).2
  have hscale : x.toBits.toNat / 2 ^ 52 % 2 ^ 11 = (-x).toBits.toNat / 2 ^ 52 % 2 ^ 11 := by omega
  have hfraction : x.toBits.toNat % 2 ^ 52 = (-x).toBits.toNat % 2 ^ 52 := by omega
  have hnegative : (x.toBits.toNat / 2 ^ 63 % 2 == 1) = true := by
    rw [beq_iff_eq]
    omega
  have hparts' : Parts.ofFloat x = .finite true M E := by
    simp only [Parts.ofFloat, Nat.pow_eq] at hparts ⊢
    rw [hscale, hfraction, hnegative]
    split at hparts
    · split at hparts <;> cases hparts
    · next hones =>
      rw [if_neg hones]
      split at hparts
      · next hzero =>
        obtain ⟨-, rfl, rfl⟩ := Parts.finite.inj hparts
        rw [if_pos hzero]
      · next hzero =>
        obtain ⟨-, rfl, rfl⟩ := Parts.finite.inj hparts
        rw [if_neg hzero]
  simp [Decimal.text, Style.text, signedText, hparts, hparts']

end EquationSolver.Floats
