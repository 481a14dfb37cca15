import EquationSolver.Proofs.Decimal.Positional
import EquationSolver.Proofs.Decimal.Shortest

/-!
# Reading floats back

The text of a finite float with a positive sign is digits with at most one point, and it is read as
the float itself.
-/

namespace EquationSolver.Decimal

open Float.Model Float.Model.UnpackedFloat

/-- Whether a float is finite and has a positive sign. -/
def Unsigned (x : Float) : Prop :=
  x.isFinite = true ∧ x.toBits.toNat < 2 ^ 63

theorem toNat_unpackExponent (bits : BitVec 64) :
    (@unpackExponent Format.binary64 bits).toNat = bits.toNat / 2 ^ 52 % 2 ^ 11 := by
  simp [unpackExponent, BitVec.extractLsb_toNat, Nat.shiftRight_eq_div_pow]

theorem exists_parts {x : Float} (hfinite : x.isFinite = true) :
    ∃ M E, Parts.ofFloat x = .finite (x.toBits.toNat / 2 ^ 63 % 2 == 1) M E := by
  have hscale : ¬x.toBits.toNat / 2 ^ 52 % 2 ^ 11 = 2 ^ 11 - 1 := by
    intro hscale
    have hones : @unpackExponent Format.binary64 x.toBits.toBitVec = -1#11 := by
      apply BitVec.eq_of_toNat_eq
      rw [toNat_unpackExponent]
      exact hscale
    have hunpack : (UnpackedFloat.unpack Format.binary64 x.toBits.toBitVec).isFinite = true := hfinite
    simp only [UnpackedFloat.unpack] at hunpack
    rw [if_pos hones] at hunpack
    split at hunpack <;> cases hunpack
  simp only [Parts.ofFloat, Nat.pow_eq, if_neg hscale]
  split <;> exact ⟨_, _, rfl⟩

theorem Unsigned.exists_parts {x : Float} (h : Unsigned x) :
    ∃ M E, Parts.ofFloat x = .finite false M E := by
  obtain ⟨M, E, hparts⟩ := Decimal.exists_parts h.1
  have hnegative : (x.toBits.toNat / 2 ^ 63 % 2 == 1) = false := by
    rw [beq_eq_false_iff_ne]
    have := h.2
    omega
  exact ⟨M, E, hnegative ▸ hparts⟩

theorem read?_eq_readUnsigned? {c : Char} (more : List Char) (h : c.isDigit = true ∨ c = '.') :
    read? (c :: more) = readUnsigned? (c :: more) := by
  have hrange : 46 ≤ c.toNat ∧ c.toNat ≤ 57 := by
    rcases h with h | rfl
    · simp [Char.isDigit, UInt32.le_iff_toNat_le] at h
      omega
    · decide
  have hlower : c.toLower = c := by
    have hupper : ¬(c.val ≥ 'A'.val ∧ c.val ≤ 'Z'.val) := by
      simp only [ge_iff_le, UInt32.le_iff_toNat_le]
      change ¬(65 ≤ c.toNat ∧ c.toNat ≤ 90)
      omega
    rw [Char.toLower, dif_neg hupper]
  have hname : ∀ name : String, (∀ l ∈ name.toList.head?, 57 < l.toNat) →
      String.ofList ((c :: more).map Char.toLower) ≠ name := by
    rintro name hname rfl
    have := hname c (by simp [hlower])
    omega
  have hminus : c ≠ '-' := by
    rintro rfl
    exact absurd hrange (by decide)
  have hplus : c ≠ '+' := by
    rintro rfl
    exact absurd hrange (by decide)
  have hread : read? (c :: more) = readMagnitude? (c :: more) := by
    unfold read?
    split
    · next heq =>
      cases heq
      exact absurd rfl hminus
    · next heq =>
      cases heq
      exact absurd rfl hplus
    · rfl
  rw [hread, readMagnitude?]
  have hinf := hname "inf" (by simp)
  have hinfinity := hname "infinity" (by simp)
  have hnan := hname "nan" (by simp)
  simp only [hinf, hinfinity, hnan, or_self, if_false]

private theorem Spells.read?_eq {text : List Char} {value : ℚ} (h : Spells text value) :
    read? text = readUnsigned? text := by
  obtain ⟨c, more, rfl, hc⟩ := h.first
  exact read?_eq_readUnsigned? more (.inl hc)

/-- The text of a float spells a number that is read as the float. -/
theorem Unsigned.spells_text {x : Float} (h : Unsigned x) :
    ∃ value, Spells (text x).toList value ∧ read? (text x).toList = some x := by
  obtain ⟨M, E, hparts⟩ := h.exists_parts
  have htext : (text x).toList = Style.plain.magnitudeText M E := by
    simp [text, Style.text, signedText, hparts]
  rw [htext]
  rcases Nat.eq_zero_or_pos M with rfl | hM
  · have hzero : x = 0.0 := by
      apply Float.toBits_inj.mp
      apply UInt64.toNat_inj.mp
      have hbits : (0.0 : Float).toBits.toNat = 0 := by decide +kernel
      rw [hbits]
      have hlt := h.2
      simp only [Parts.ofFloat, Nat.pow_eq] at hparts
      split at hparts
      · split at hparts <;> cases hparts
      · split at hparts
        · simp only [Parts.finite.injEq] at hparts
          omega
        · simp only [Parts.finite.injEq] at hparts
          omega
    have hspells : Spells (positionalText ['0'] 0 "") _ := spells_positionalText (by simp) (by simp) 0
    have hpositional : Style.plain.magnitudeText 0 E = positionalText ['0'] 0 "" := by
      simp [Style.magnitudeText, Style.plain, Positional.covers]
    rw [hpositional]
    refine ⟨_, hspells, ?_⟩
    obtain ⟨digits, exponent, hvalue, hread⟩ := hspells.reads
    have hdigits : digits = 0 := by
      have hten : (10 : ℚ) ^ exponent ≠ 0 := by positivity
      simpa [ofDigits, hten] using hvalue
    rw [hspells.read?_eq, hread, hdigits, hzero]
    simp [nearestFloat]
  · have hc := canonical_of_ofFloat hparts hM
    have hr := roundsTo_shortest hc .up
    have hdigits : 0 < (shortest M E .up).digits := (hr.magnitude hc).1
    have hspells := spells_significantDigits hdigits
    have hpositional : Style.plain.magnitudeText M E =
        positionalText (shortest M E .up).significantDigits (shortest M E .up).lead "" := by
      simp [Style.magnitudeText, Style.plain, Positional.covers, hM.ne']
    rw [hpositional]
    refine ⟨_, hspells, ?_⟩
    obtain ⟨digits, exponent, hvalue, hread⟩ := hspells.reads
    rw [← hvalue] at hr
    rw [hspells.read?_eq, hread, hr.nearestFloat_eq hc, hc.toFloat_eq hparts]

end EquationSolver.Decimal
