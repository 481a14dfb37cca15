import EquationSolver.Proofs.Decimal.Rounding

/-!
# The bits of floats

Packing the mantissa and the exponent of a positive float gives the float, and they are unpacked from
it again.
-/

namespace EquationSolver.Decimal

open Float.Model Float.Model.UnpackedFloat

variable {M : Nat} {E : Int}

theorem exponentBias_add : (Format.binary64.exponentBias : Int) + (52 : Nat) = 1075 := by
  simp only [Format.exponentBias]
  norm_num

theorem add_exponentBias (E : Int) : E + Format.binary64.exponentBias + (52 : Nat) = E + 1075 := by
  rw [add_assoc, exponentBias_add]

def Canonical.toFloat (hc : Canonical M E) : Float :=
  .ofModel (.pack (.finite .positive M E hc.pos))

private theorem Canonical.log2_eq (hc : Canonical M E) (hM : 2 ^ 52 ≤ M) : M.log2 = 52 := by
  have hlow := (Nat.le_log2 hc.pos.ne').mpr hM
  have hhigh := (Nat.log2_lt hc.pos.ne').mpr hc.lt
  omega

private theorem Canonical.log2_lt (hc : Canonical M E) (hM : M < 2 ^ 52) : M.log2 < 52 :=
  (Nat.log2_lt hc.pos.ne').mpr hM

theorem Canonical.pack_eq (hc : Canonical M E) (sign : UnpackedFloat.Sign) :
    UnpackedFloat.pack Format.binary64 (.finite sign M E hc.pos) =
      packComponents Format.binary64 sign
        (if 2 ^ 52 ≤ M then BitVec.ofNat 11 (E + 1075).toNat else 0#11) (BitVec.ofNat 52 M) := by
  have hlow := hc.least_le
  have hhigh := hc.le_greatest
  have hfits : ¬2 ^ 11 ≤ (E + 1075).toNat + 1 := by omega
  simp only [UnpackedFloat.pack, add_exponentBias, if_neg hfits]
  by_cases hM : 2 ^ 52 ≤ M
  · have hlog : M.log2 + 1 = Format.binary64.mantissaBits := by rw [hc.log2_eq hM]; rfl
    rw [if_pos hlog, if_pos hM]
  · have hlog : ¬M.log2 + 1 = Format.binary64.mantissaBits := by
      have := hc.log2_lt (not_le.mp hM)
      simp only [Format.mantissaBits]
      omega
    rw [if_neg hlog, if_neg hM]

theorem Canonical.unpack_pack (hc : Canonical M E) (sign : UnpackedFloat.Sign) :
    UnpackedFloat.unpack Format.binary64
      (UnpackedFloat.pack Format.binary64 (.finite sign M E hc.pos)) = .finite sign M E hc.pos := by
  have hlow := hc.least_le
  have hhigh := hc.le_greatest
  rw [hc.pack_eq]
  simp only [UnpackedFloat.unpack, unpackExponent_packComponents, unpackMantissa_packComponents,
    unpackSign_packComponents, Sign.ofBitVec_toBitVec]
  by_cases hM : 2 ^ 52 ≤ M
  · have hexponent : (BitVec.ofNat 11 (E + 1075).toNat).toNat = (E + 1075).toNat := by
      rw [BitVec.toNat_ofNat, Nat.mod_eq_of_lt (by omega)]
    have hones : BitVec.ofNat 11 (E + 1075).toNat ≠ -1#11 := fun h => by
      have := congrArg BitVec.toNat h
      rw [hexponent] at this
      change _ = 2047 at this
      omega
    have hzero : BitVec.ofNat 11 (E + 1075).toNat ≠ 0#11 := fun h => by
      have := congrArg BitVec.toNat h
      rw [hexponent] at this
      change _ = 0 at this
      omega
    have hmantissa : (1#1 ++ BitVec.ofNat 52 M).toNat = M := by
      have hlt := hc.lt
      have hfraction : (BitVec.ofNat 52 M).toNat = M - 2 ^ 52 := by
        rw [BitVec.toNat_ofNat]
        omega
      rw [BitVec.toNat_append, hfraction, ← Nat.shiftLeft_add_eq_or_of_lt (by omega)]
      change 1 <<< 52 + _ = _
      omega
    have hbias : ((E + 1075).toNat : Int) - (Format.binary64.exponentBias + (52 : Nat)) = E := by
      rw [exponentBias_add]
      omega
    simp only [if_pos hM]
    rw [if_neg hones, if_neg hzero]
    simp only [hexponent, hmantissa, hbias]
  · have hE : E = -1074 := hc.normal.resolve_left hM
    have hmantissa : (BitVec.ofNat 52 M).toNat = M := by
      rw [BitVec.toNat_ofNat, Nat.mod_eq_of_lt (by omega)]
    have hpos := hc.pos
    have hzero : BitVec.ofNat 52 M ≠ 0#52 := fun h => by
      have := congrArg BitVec.toNat h
      rw [hmantissa] at this
      change _ = 0 at this
      omega
    simp only [if_neg hM]
    rw [if_neg (by decide), if_pos trivial, dif_neg hzero]
    simp only [hmantissa, hE]
    rfl

theorem Canonical.unpack_toFloat (hc : Canonical M E) :
    hc.toFloat.toModel.unpack = .finite .positive M E hc.pos :=
  hc.unpack_pack .positive

theorem toNat_packComponents (sign : UnpackedFloat.Sign) (exponent : BitVec 11)
    (mantissa : BitVec 52) : (packComponents Format.binary64 sign exponent mantissa).toNat =
      sign.toBitVec.toNat * 2 ^ 63 + exponent.toNat * 2 ^ 52 + mantissa.toNat := by
  have happend : packComponents Format.binary64 sign exponent mantissa =
      sign.toBitVec ++ exponent ++ mantissa := rfl
  rw [happend, BitVec.toNat_append, BitVec.toNat_append, ← Nat.shiftLeft_add_eq_or_of_lt exponent.isLt,
    ← Nat.shiftLeft_add_eq_or_of_lt mantissa.isLt, Nat.shiftLeft_eq, Nat.shiftLeft_eq]
  ring

theorem Canonical.toNat_toBits (hc : Canonical M E) :
    hc.toFloat.toBits.toNat =
      (if 2 ^ 52 ≤ M then (E + 1075).toNat else 0) * 2 ^ 52 + M % 2 ^ 52 := by
  have hhigh := hc.le_greatest
  have hpack : hc.toFloat.toBits.toNat =
      (UnpackedFloat.pack Format.binary64 (.finite .positive M E hc.pos)).toNat := rfl
  have hsign : UnpackedFloat.Sign.positive.toBitVec.toNat = 0 := rfl
  rw [hpack, hc.pack_eq, toNat_packComponents, hsign, zero_mul, zero_add, BitVec.toNat_ofNat]
  split
  · rw [BitVec.toNat_ofNat, Nat.mod_eq_of_lt (by omega)]
  · rfl

theorem canonical_of_ofFloat {x : Float} {negative : Bool}
    (h : Parts.ofFloat x = .finite negative M E) (hpos : 0 < M) : Canonical M E := by
  simp only [Parts.ofFloat, leastExponent, Nat.pow_eq] at h
  split at h
  · split at h <;> cases h
  · split at h
    · cases h
      exact ⟨hpos, by omega, by omega, by omega, .inr rfl⟩
    · cases h
      exact ⟨hpos, by omega, by omega, by omega, .inl (by omega)⟩

theorem Canonical.toFloat_eq (hc : Canonical M E) {x : Float}
    (h : Parts.ofFloat x = .finite false M E) : hc.toFloat = x := by
  apply Float.toBits_inj.mp
  apply UInt64.toNat_inj.mp
  rw [hc.toNat_toBits]
  have hbits := x.toBits.toNat_lt
  simp only [Parts.ofFloat, leastExponent, Nat.pow_eq] at h
  split at h
  · split at h <;> cases h
  · split at h
    · simp only [Parts.finite.injEq, beq_eq_false_iff_ne] at h
      obtain ⟨hsign, rfl, rfl⟩ := h
      rw [if_neg (by omega)]
      omega
    · simp only [Parts.finite.injEq, beq_eq_false_iff_ne] at h
      obtain ⟨hsign, rfl, rfl⟩ := h
      rw [if_pos (by omega)]
      omega

end EquationSolver.Decimal
