import EquationSolver.Decimal.Shortest
import Mathlib

/-!
# Rounding to floats

Which numbers are rounded to a float. A float is a mantissa of up to 53 bits and an exponent of two;
the numbers that are rounded to it are an interval, and every way to write such a number with enough
bits in front of its accuracy is rounded to the float.
-/

namespace EquationSolver.Decimal

open Float.Model Float.Model.UnpackedFloat

/-- Whether a mantissa and an exponent are those of a positive float. -/
structure Canonical (mantissa : Nat) (exponent : Int) : Prop where
  pos : 0 < mantissa
  lt : mantissa < 2 ^ 53
  least_le : -1074 ≤ exponent
  le_greatest : exponent ≤ 971
  normal : 2 ^ 52 ≤ mantissa ∨ exponent = -1074

/-- Whether a number is rounded to a float. The ends of the interval are, if the mantissa is even. -/
structure RoundsTo (mantissa : Nat) (exponent : Int) (value : ℚ) : Prop where
  low_le : (4 * mantissa - lowerGap mantissa exponent) * (2 : ℚ) ^ (exponent - 2) ≤ value
  le_high : value ≤ (4 * mantissa + 2) * (2 : ℚ) ^ (exponent - 2)
  low_lt : mantissa % 2 = 1 → (4 * mantissa - lowerGap mantissa exponent) * (2 : ℚ) ^ (exponent - 2) < value
  lt_high : mantissa % 2 = 1 → value < (4 * mantissa + 2) * (2 : ℚ) ^ (exponent - 2)

/-- Whether a number lies where an accuracy says, as seen from the whole number below it. -/
def Approximates (below : Nat) : Accuracy → ℚ → Prop
  | .exact, q => q = below
  | .inexact .lt, q => below < q ∧ q < below + 1 / 2
  | .inexact .eq, q => q = below + 1 / 2
  | .inexact .gt, q => below + 1 / 2 < q ∧ q < below + 1

theorem Approximates.bounds {below : Nat} {accuracy : Accuracy} {q : ℚ}
    (h : Approximates below accuracy q) : below ≤ q ∧ q < below + 1 := by
  rcases accuracy with _ | (_ | _ | _)
  all_goals
    simp only [Approximates] at h
    constructor <;> linarith

private theorem Approximates.shiftRightOne {em : ExtendedMantissa} {q : ℚ}
    (h : Approximates em.mantissa em.accuracy q) :
    Approximates em.shiftRightOne.mantissa em.shiftRightOne.accuracy (q / 2) := by
  obtain ⟨m, roundBit, stickyBit⟩ := em
  rcases Nat.mod_two_eq_zero_or_one m with hbit | hbit
  · have hm : (m : ℚ) = 2 * (m / 2 : Nat) := by
      exact_mod_cast (by omega : m = 2 * (m / 2))
    cases roundBit <;> cases stickyBit
    all_goals
      simp only [ExtendedMantissa.shiftRightOne, ExtendedMantissa.accuracy, Approximates, hbit,
        bne_self_eq_false, Bool.or_false, Bool.or_true, hm] at h ⊢
    case false.false => linarith
    all_goals constructor <;> linarith
  · have hm : (m : ℚ) = 2 * (m / 2 : Nat) + 1 := by
      exact_mod_cast (by omega : m = 2 * (m / 2) + 1)
    have hone : (1 != 0) = true := rfl
    cases roundBit <;> cases stickyBit
    all_goals
      simp only [ExtendedMantissa.shiftRightOne, ExtendedMantissa.accuracy, Approximates, hbit, hone,
        Bool.or_false, Bool.or_true, hm] at h ⊢
    case false.false => linarith
    all_goals constructor <;> linarith

private theorem Approximates.shiftRight {em : ExtendedMantissa} {q : ℚ}
    (h : Approximates em.mantissa em.accuracy q) (k : Nat) :
    Approximates (em >>> k).mantissa (em >>> k).accuracy (q / 2 ^ k) := by
  induction k with
  | zero => simpa [HShiftRight.hShiftRight, Nat.repeat] using h
  | succ k ih =>
    have hstep : em >>> (k + 1) = (em >>> k).shiftRightOne := rfl
    rw [hstep, pow_succ, ← div_div]
    exact ih.shiftRightOne

/-- Whether a whole number is the nearest to a number, or the even one of two. -/
structure Nearest (whole : Nat) (q : ℚ) : Prop where
  low_le : whole - 1 / 2 ≤ q
  le_high : q ≤ whole + 1 / 2
  low_lt : whole % 2 = 1 → whole - 1 / 2 < q
  lt_high : whole % 2 = 1 → q < whole + 1 / 2

private theorem Approximates.round_eq {below whole : Nat} {accuracy : Accuracy} {q : ℚ}
    (h : Approximates below accuracy q) (hn : Nearest whole q) :
    accuracy.roundToNearestEven below = whole := by
  obtain ⟨hbelow, habove⟩ := h.bounds
  obtain ⟨hlow, hhigh, hlow', hhigh'⟩ := hn
  have hle : below < whole + 1 := by
    have : (below : ℚ) < whole + 1 := by linarith
    exact_mod_cast this
  have hge : whole < below + 2 := by
    have : (whole : ℚ) < below + 2 := by linarith
    exact_mod_cast this
  obtain rfl | rfl : whole = below ∨ whole = below + 1 := by omega
  · rcases accuracy with _ | (_ | _ | _)
    · rfl
    · rfl
    · simp only [Approximates] at h
      have heven : whole % 2 ≠ 1 := fun hodd => by linarith [hhigh' hodd]
      simp only [Accuracy.roundToNearestEven]
      omega
    · simp only [Approximates] at h
      linarith
  · push_cast at hlow hlow'
    rcases accuracy with _ | (_ | _ | _)
    · simp only [Approximates] at h
      linarith
    · simp only [Approximates] at h
      linarith
    · simp only [Approximates] at h
      have heven : (below + 1) % 2 ≠ 1 := fun hodd => by linarith [hlow' hodd]
      simp only [Accuracy.roundToNearestEven]
      omega
    · rfl

theorem Approximates.shiftToTargetExponent {m : Nat} {e t : Int} {accuracy : Accuracy} {value : ℚ}
    (h : Approximates m accuracy (value / 2 ^ e))
    (ht : Format.binary64.targetExponent (totalExponent m e) = t) (he : e ≤ t) :
    ∃ em, shiftToTargetExponent Format.binary64 m e accuracy = (em, t) ∧
      Approximates em.mantissa em.accuracy (value / 2 ^ t) := by
  have hstart : Approximates (ExtendedMantissa.ofMantissaAndAccuracy m accuracy).mantissa
      (ExtendedMantissa.ofMantissaAndAccuracy m accuracy).accuracy (value / 2 ^ e) := by
    rcases accuracy with _ | (_ | _ | _) <;> exact h
  refine ⟨ExtendedMantissa.ofMantissaAndAccuracy m accuracy >>> (t - e).toNat, ?_, ?_⟩
  · have hexp : e + ((t - e).toNat : Int) = t := by omega
    simp only [UnpackedFloat.shiftToTargetExponent, shiftToExponent, ht, hexp]
  · have hpow : (2 : ℚ) ^ t = 2 ^ e * 2 ^ (t - e).toNat := by
      rw [← zpow_natCast, ← zpow_add₀ (by norm_num)]
      congr 1
      omega
    rw [hpow, ← div_div]
    exact hstart.shiftRight _

theorem targetExponent_eq (m : Nat) (e : Int) :
    Format.binary64.targetExponent (totalExponent m e) = max (m.log2 + e - 52) (-1074) := by
  simp only [Format.targetExponent, totalExponent, Format.mantissaBits, Format.minExponent]
  norm_num
  omega

theorem lowerGap_le_two (mantissa : Nat) (exponent : Int) : lowerGap mantissa exponent ≤ 2 := by
  unfold lowerGap
  split <;> decide

section Target

variable {M m : Nat} {E e : Int} {value : ℚ}

theorem four_mul_zpow (E : Int) : (4 : ℚ) * 2 ^ (E - 2) = 2 ^ E := by
  rw [zpow_sub₀ (by norm_num)]
  norm_num
  ring

theorem two_mul_zpow (E : Int) : (2 : ℚ) * 2 ^ (E - 2) = 2 ^ (E - 1) := by
  rw [← zpow_one_add₀ (by norm_num)]
  congr 1
  omega

private theorem RoundsTo.nearest (hr : RoundsTo M E value) : Nearest M (value / 2 ^ E) := by
  obtain ⟨hlow, hhigh, hlow', hhigh'⟩ := hr
  have hgap : (lowerGap M E : ℚ) ≤ 2 := by exact_mod_cast lowerGap_le_two M E
  have hunit : (0 : ℚ) < 2 ^ (E - 2) := by positivity
  have hpos : (0 : ℚ) < 2 ^ E := by positivity
  have hend : (4 * M - 2) * (2 : ℚ) ^ (E - 2) ≤ (4 * M - lowerGap M E) * 2 ^ (E - 2) :=
    mul_le_mul_of_nonneg_right (by linarith) hunit.le
  have hmid : (4 * M - 2) * (2 : ℚ) ^ (E - 2) = (M - 1 / 2) * 2 ^ E := by
    rw [← four_mul_zpow E]
    ring
  have hmid' : (4 * M + 2) * (2 : ℚ) ^ (E - 2) = (M + 1 / 2) * 2 ^ E := by
    rw [← four_mul_zpow E]
    ring
  constructor
  · rw [le_div_iff₀ hpos]
    linarith
  · rw [div_le_iff₀ hpos]
    linarith
  · intro hodd
    rw [lt_div_iff₀ hpos]
    linarith [hlow' hodd]
  · intro hodd
    rw [div_lt_iff₀ hpos]
    linarith [hhigh' hodd]

theorem RoundsTo.lt_zpow (hc : Canonical M E) (hr : RoundsTo M E value) : value < 2 ^ (53 + E) := by
  have hn := hr.nearest
  have hpos : (0 : ℚ) < 2 ^ E := by positivity
  have hquotient : value / 2 ^ E < 2 ^ 53 := by
    have hlt := hc.lt
    by_cases hodd : M % 2 = 1
    · have hM : (M : ℚ) ≤ 2 ^ 53 - 1 := by
        have : M + 1 ≤ 2 ^ 53 := hlt
        have : ((M + 1 : Nat) : ℚ) ≤ (2 ^ 53 : Nat) := by exact_mod_cast this
        push_cast at this
        linarith
      linarith [hn.lt_high hodd]
    · have hM : (M : ℚ) ≤ 2 ^ 53 - 2 := by
        have : M + 2 ≤ 2 ^ 53 := by omega
        have : ((M + 2 : Nat) : ℚ) ≤ (2 ^ 53 : Nat) := by exact_mod_cast this
        push_cast at this
        linarith
      linarith [hn.le_high]
  rw [div_lt_iff₀ hpos] at hquotient
  rw [zpow_add₀ (by norm_num)]
  exact_mod_cast hquotient

/-- Just below a power of two the floats are closer to each other, so that a number that is rounded up
to it has one bit more in front of its accuracy. -/
theorem RoundsTo.nearest_double (hr : RoundsTo (2 ^ 52) E value) (hE : E ≠ -1074)
    (hlt : value < 2 ^ (52 + E)) : Nearest (2 ^ 53) (value / 2 ^ (E - 1)) ∧ 2 ^ (51 + E) ≤ value := by
  have hgap : lowerGap (2 ^ 52) E = 1 := by simp [lowerGap, leastExponent, hE]
  have hlow := hr.low_le
  have hunit : (0 : ℚ) < 2 ^ (E - 2) := by positivity
  have hpow : ∀ k : Nat, (2 : ℚ) ^ (k + E) = 2 ^ k * 4 * 2 ^ (E - 2) := fun k => by
    rw [zpow_add₀ (by norm_num), ← four_mul_zpow E, zpow_natCast]
    ring
  have h52 := hpow 52
  have h51 := hpow 51
  push_cast at h52 h51
  rw [hgap] at hlow
  push_cast at hlow
  rw [h52] at hlt
  have heven : ¬(2 ^ 53) % 2 = 1 := by decide
  constructor
  · constructor
    · rw [← two_mul_zpow, le_div_iff₀ (by positivity)]
      push_cast
      linarith
    · rw [← two_mul_zpow, div_le_iff₀ (by positivity)]
      push_cast
      linarith
    · intro hodd
      exact absurd hodd heven
    · intro hodd
      exact absurd hodd heven
  · rw [h51]
    linarith

private theorem RoundsTo.target (hc : Canonical M E) (hr : RoundsTo M E value) (hlow : m * 2 ^ e ≤ value)
    (hhigh : value < (m + 1) * 2 ^ e) (he : e ≤ max (m.log2 + e - 52) (-1074)) :
    max (m.log2 + e - 52) (-1074) = E ∧ Nearest M (value / 2 ^ E) ∨
      max (m.log2 + e - 52) (-1074) = E - 1 ∧ M = 2 ^ 52 ∧ Nearest (2 ^ 53) (value / 2 ^ (E - 1)) := by
  have hbase : (1 : ℚ) < 2 := by norm_num
  have hleast := hc.least_le
  have hunit : (0 : ℚ) < 2 ^ e := by positivity
  -- The exponents between which the number lies, given by the mantissa in front of its accuracy.
  have habove : ∀ k : Int, (2 : ℚ) ^ k ≤ value → k ≤ m.log2 + e := by
    intro k hk
    have hsucc : (m + 1 : ℚ) ≤ 2 ^ (m.log2 + 1) := by exact_mod_cast Nat.lt_log2_self (n := m)
    have hlt : (2 : ℚ) ^ k < 2 ^ (((m.log2 + 1 : Nat) : Int) + e) := by
      rw [zpow_add₀ (by norm_num), zpow_natCast]
      exact lt_of_le_of_lt hk (lt_of_lt_of_le hhigh (mul_le_mul_of_nonneg_right hsucc hunit.le))
    have := (zpow_lt_zpow_iff_right₀ hbase).mp hlt
    omega
  have hbelow : ∀ k : Int, value < 2 ^ k → m.log2 + e < k ∨ m.log2 + e ≤ -1074 := by
    intro k hk
    by_cases hm : m = 0
    · subst hm
      right
      have : Nat.log2 0 = 0 := by decide
      omega
    · left
      have hself : (2 ^ m.log2 : ℚ) ≤ m := by exact_mod_cast Nat.log2_self_le hm
      have hlt : (2 : ℚ) ^ ((m.log2 : Int) + e) < 2 ^ k := by
        rw [zpow_add₀ (by norm_num), zpow_natCast]
        exact lt_of_le_of_lt (mul_le_mul_of_nonneg_right hself hunit.le) (lt_of_le_of_lt hlow hk)
      exact (zpow_lt_zpow_iff_right₀ hbase).mp hlt
  have htop := hbelow (53 + E) (hr.lt_zpow hc)
  -- Below the power of two of the mantissa the number keeps one bit more, unless floats are subnormal.
  rcases le_or_gt (2 ^ (52 + E)) value with hge | hlt
  · have := habove _ hge
    exact .inl ⟨by omega, hr.nearest⟩
  · have htop' := hbelow _ hlt
    by_cases hE : E = -1074
    · exact .inl ⟨by omega, hr.nearest⟩
    · have hnormal : 2 ^ 52 ≤ M := hc.normal.resolve_right hE
      have hquotient : value / 2 ^ E < 2 ^ 52 := by
        rw [div_lt_iff₀ (by positivity)]
        rw [zpow_add₀ (by norm_num)] at hlt
        exact_mod_cast hlt
      have hle : (M : ℚ) < 2 ^ 52 + 1 := by linarith [hr.nearest.low_le]
      have hle' : M < 2 ^ 52 + 1 := by exact_mod_cast hle
      have hM : M = 2 ^ 52 := by omega
      subst hM
      obtain ⟨hnearest, hge⟩ := hr.nearest_double hE hlt
      have := habove _ hge
      exact .inr ⟨by omega, rfl, hnearest⟩

theorem shiftToTargetExponent_of_lt (hM : M < 2 ^ 53) (hE : -1074 ≤ E) :
    shiftToTargetExponent Format.binary64 M E .exact = (⟨M, false, false⟩, E) := by
  have hlog : M.log2 ≤ 52 := by
    by_cases hzero : M = 0
    · subst hzero
      decide
    · exact Nat.le_of_lt_succ ((Nat.log2_lt hzero).mpr hM)
  have hshift : (Format.binary64.targetExponent (totalExponent M E) - E).toNat = 0 := by
    rw [targetExponent_eq]
    omega
  simp only [shiftToTargetExponent, shiftToExponent, hshift]
  simp [HShiftRight.hShiftRight, Nat.repeat, ExtendedMantissa.ofMantissaAndAccuracy]

theorem shiftToTargetExponent_of_double (hE : -1074 < E) :
    shiftToTargetExponent Format.binary64 (2 ^ 53) (E - 1) .exact = (⟨2 ^ 52, false, false⟩, E) := by
  have hshift : (Format.binary64.targetExponent (totalExponent (2 ^ 53) (E - 1)) - (E - 1)).toNat = 1 := by
    rw [targetExponent_eq, Nat.log2_two_pow]
    omega
  simp only [shiftToTargetExponent, shiftToExponent, hshift]
  simp [HShiftRight.hShiftRight, Nat.repeat, ExtendedMantissa.ofMantissaAndAccuracy,
    ExtendedMantissa.shiftRightOne]

/-- A number that is rounded to a float is rounded to it from every mantissa that has enough bits. -/
theorem RoundsTo.roundWithAccuracy_eq {accuracy : Accuracy} (hc : Canonical M E)
    (hr : RoundsTo M E value) (h : Approximates m accuracy (value / 2 ^ e))
    (he : e ≤ Format.binary64.targetExponent (totalExponent m e)) (sign : Sign) :
    roundWithAccuracy Format.binary64 sign m e accuracy = .finite sign M E hc.pos := by
  obtain ⟨em, hshift, hem⟩ := h.shiftToTargetExponent rfl he
  have hunit : (0 : ℚ) < 2 ^ e := by positivity
  have hlow := (le_div_iff₀ hunit).mp h.bounds.1
  have hhigh := (div_lt_iff₀ hunit).mp h.bounds.2
  rw [targetExponent_eq] at he hshift hem
  rw [roundWithAccuracy, hshift]
  rcases hr.target hc hlow hhigh he with ⟨ht, hn⟩ | ⟨ht, hM, hn⟩
  · rw [ht] at hem ⊢
    have hround : em.roundedMantissa = M := hem.round_eq hn
    simp only [hround, shiftToTargetExponent_of_lt hc.lt hc.least_le]
    rw [dif_neg hc.pos.ne']
  · subst hM
    rw [ht] at hem he ⊢
    have hround : em.roundedMantissa = 2 ^ 53 := hem.round_eq hn
    have hE : -1074 < E := by
      have := le_max_right (m.log2 + e - 52) (-1074)
      omega
    simp only [hround, shiftToTargetExponent_of_double hE]
    rfl

theorem le_targetExponent (h : 2 ^ 52 ≤ m) (e : Int) :
    e ≤ Format.binary64.targetExponent (totalExponent m e) := by
  have hlog : 52 ≤ m.log2 := (Nat.le_log2 (by omega)).mpr h
  rw [targetExponent_eq]
  omega

theorem approximates_product (m₁ m₂ : Nat) (e₁ e₂ : Int) :
    Approximates (m₁ * m₂) .exact (m₁ * 2 ^ e₁ * (m₂ * 2 ^ e₂) / 2 ^ (e₁ + e₂)) := by
  have hunit : (2 : ℚ) ^ (e₁ + e₂) ≠ 0 := by positivity
  simp only [Approximates]
  rw [div_eq_iff hunit, zpow_add₀ (by norm_num)]
  push_cast
  ring

private theorem approximates_fraction (num : Nat) {den : Nat} (h : 0 < den) :
    Approximates (num / den) (accuracyOfFraction (num % den) den) (num / den : ℚ) := by
  have hden : (0 : ℚ) < den := by exact_mod_cast h
  have hsplit : (num : ℚ) = (num / den : Nat) * den + (num % den : Nat) := by
    exact_mod_cast (Nat.div_add_mod' num den).symm
  have hrest : ((num % den : Nat) : ℚ) < den := by exact_mod_cast Nat.mod_lt num h
  have hquotient : (num / den : ℚ) = (num / den : Nat) + (num % den : Nat) / den := by
    rw [div_eq_iff hden.ne', add_mul, div_mul_cancel₀ _ hden.ne']
    exact hsplit
  rw [hquotient]
  unfold accuracyOfFraction
  split
  · next hzero => simp [Approximates, hzero]
  · next hpos =>
    have hpos' : (0 : ℚ) < (num % den : Nat) := by exact_mod_cast Nat.pos_of_ne_zero hpos
    have hfraction : ((num % den : Nat) : ℚ) / den < 1 := (div_lt_one hden).mpr hrest
    cases hcmp : compare (2 * (num % den)) den with
    | lt =>
      have hlt : (2 * (num % den : Nat) : ℚ) < den := by exact_mod_cast Nat.compare_eq_lt.mp hcmp
      have hhalf : ((num % den : Nat) : ℚ) / den < 1 / 2 := by
        rw [div_lt_iff₀ hden]
        linarith
      exact ⟨by linarith [div_pos hpos' hden], by linarith⟩
    | eq =>
      have heq : (2 * (num % den : Nat) : ℚ) = den := by exact_mod_cast Nat.compare_eq_eq.mp hcmp
      have hhalf : ((num % den : Nat) : ℚ) / den = 1 / 2 := by
        rw [div_eq_iff hden.ne']
        linarith
      simp only [Approximates, hhalf]
    | gt =>
      have hgt : (den : ℚ) < 2 * (num % den : Nat) := by exact_mod_cast Nat.compare_eq_gt.mp hcmp
      have hhalf : 1 / 2 < ((num % den : Nat) : ℚ) / den := by
        rw [lt_div_iff₀ hden]
        linarith
      exact ⟨by linarith, by linarith⟩

theorem le_targetExponent_quotient {m₁ m₂ : Nat} {e₁ e₂ t : Int} (h₁ : 0 < m₁) (h₂ : 0 < m₂)
    (ht : t = min (e₁ - e₂)
      (Format.binary64.targetExponent (totalExponent m₁ e₁ - totalExponent m₂ e₂))) :
    t ≤ Format.binary64.targetExponent (totalExponent ((m₁ <<< (e₁ - e₂ - t).toNat) / m₂) t) := by
  have htarget : t ≤ max ((m₁.log2 : Int) + e₁ - (m₂.log2 + e₂) - 53) (-1074) ∧ t ≤ e₁ - e₂ := by
    simp only [Format.targetExponent, totalExponent, Format.mantissaBits, Format.minExponent] at ht
    norm_num at ht
    omega
  by_cases hleast : t ≤ -1074
  · rw [targetExponent_eq]
    omega
  · apply le_targetExponent
    have hlow := Nat.log2_self_le h₁.ne'
    have hhigh := Nat.lt_log2_self (n := m₂)
    rw [Nat.le_div_iff_mul_le h₂, Nat.shiftLeft_eq]
    calc
      2 ^ 52 * m₂ ≤ 2 ^ 52 * 2 ^ (m₂.log2 + 1) := Nat.mul_le_mul_left _ hhigh.le
      _ = 2 ^ (m₂.log2 + 53) := by ring
      _ ≤ 2 ^ (m₁.log2 + (e₁ - e₂ - t).toNat) := Nat.pow_le_pow_right (by decide) (by omega)
      _ = 2 ^ m₁.log2 * 2 ^ (e₁ - e₂ - t).toNat := pow_add _ _ _
      _ ≤ m₁ * 2 ^ (e₁ - e₂ - t).toNat := Nat.mul_le_mul_right _ hlow

theorem approximates_quotient {m₁ m₂ : Nat} {e₁ e₂ t : Int} (h₂ : 0 < m₂) (ht : t ≤ e₁ - e₂) :
    Approximates ((m₁ <<< (e₁ - e₂ - t).toNat) / m₂)
      (accuracyOfFraction ((m₁ <<< (e₁ - e₂ - t).toNat) % m₂) m₂)
      (m₁ * 2 ^ e₁ / (m₂ * 2 ^ e₂) / 2 ^ t) := by
  have hvalue : (m₁ * 2 ^ e₁ / (m₂ * 2 ^ e₂) / 2 ^ t : ℚ) =
      ((m₁ <<< (e₁ - e₂ - t).toNat : Nat) : ℚ) / m₂ := by
    have hpow : (2 : ℚ) ^ (e₁ - e₂ - t).toNat = 2 ^ e₁ / 2 ^ e₂ / 2 ^ t := by
      rw [← zpow_natCast, ← zpow_sub₀ (by norm_num), ← zpow_sub₀ (by norm_num)]
      congr 1
      omega
    rw [Nat.shiftLeft_eq]
    push_cast
    rw [hpow]
    ring
  rw [hvalue]
  exact approximates_fraction _ h₂

end Target

end EquationSolver.Decimal
