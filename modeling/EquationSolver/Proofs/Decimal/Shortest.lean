import EquationSolver.Proofs.Decimal.Nearest

/-!
# The shortest decimals

The shortest decimal of a float lies in the interval of the float. On a grid where this is tried it is
so by the test that is made; on the last grid, of seventeen digits, it needs no test.
-/

namespace EquationSolver.Decimal

variable {M : Nat} {E : Int}

private theorem zpow_mul_pow_toNat {a : ℚ} (ha : a ≠ 0) (k : Int) :
    a ^ k * a ^ (-k).toNat = a ^ k.toNat := by
  rw [← zpow_natCast, ← zpow_natCast, ← zpow_add₀ ha]
  congr 1
  omega

def share (e p : Int) : ℚ :=
  10 ^ p / step e p

theorem share_pos (e p : Int) : 0 < share e p := by
  have hstep : (0 : ℚ) < step e p := by exact_mod_cast step_pos e p
  unfold share
  positivity

theorem step_mul_share (e p : Int) : step e p * share e p = 10 ^ p := by
  have hstep : (step e p : ℚ) ≠ 0 := by exact_mod_cast (step_pos e p).ne'
  exact mul_div_cancel₀ _ hstep

theorem unit_mul_share (e p : Int) : unit e p * share e p = 2 ^ e := by
  have hstep : (step e p : ℚ) ≠ 0 := by exact_mod_cast (step_pos e p).ne'
  have htwo := zpow_mul_pow_toNat (a := 2) (by norm_num) e
  have hten := zpow_mul_pow_toNat (a := 10) (by norm_num) p
  rw [share, mul_div_assoc', div_eq_iff hstep, unit, step]
  push_cast [Nat.pow_eq]
  rw [← htwo, ← hten]
  ring

private theorem roundsTo_of_readsBack (hM : 0 < M) {p : Int} {digits : Nat}
    (h : readsBack M E p digits = true) : RoundsTo M E (digits * 10 ^ p) := by
  have hgap := lowerGap_le_two M E
  have hlow : (4 * M - lowerGap M E : ℚ) * 2 ^ (E - 2) =
      ((4 * M - lowerGap M E) * unit (E - 2) p : Nat) * share (E - 2) p := by
    push_cast [Nat.cast_sub (by omega : lowerGap M E ≤ 4 * M)]
    rw [mul_assoc, unit_mul_share]
  have hhigh : (4 * M + 2 : ℚ) * 2 ^ (E - 2) =
      ((4 * M + 2) * unit (E - 2) p : Nat) * share (E - 2) p := by
    push_cast
    rw [mul_assoc, unit_mul_share]
  have hpoint : (digits * 10 ^ p : ℚ) = (digits * step (E - 2) p : Nat) * share (E - 2) p := by
    push_cast
    rw [mul_assoc, step_mul_share]
  have hle : ∀ {a b : Nat}, a ≤ b → (a : ℚ) * share (E - 2) p ≤ b * share (E - 2) p := fun hab =>
    mul_le_mul_of_nonneg_right (by exact_mod_cast hab) (share_pos _ _).le
  have hlt : ∀ {a b : Nat}, a < b → (a : ℚ) * share (E - 2) p < b * share (E - 2) p := fun hab =>
    mul_lt_mul_of_pos_right (by exact_mod_cast hab) (share_pos _ _)
  simp only [readsBack] at h
  split at h
  · next heven =>
    simp only [Bool.and_eq_true, decide_eq_true_eq] at h
    refine ⟨?_, ?_, fun hodd => by omega, fun hodd => by omega⟩
    · rw [hlow, hpoint]
      exact hle h.1
    · rw [hpoint, hhigh]
      exact hle h.2
  · simp only [Bool.and_eq_true, decide_eq_true_eq] at h
    have hlower : (4 * M - lowerGap M E : ℚ) * 2 ^ (E - 2) < digits * 10 ^ p := by
      rw [hlow, hpoint]
      exact hlt h.1
    have hupper : (digits * 10 ^ p : ℚ) < (4 * M + 2) * 2 ^ (E - 2) := by
      rw [hpoint, hhigh]
      exact hlt h.2
    exact ⟨hlower.le, hupper.le, fun _ => hlower, fun _ => hupper⟩

private theorem zpow_leadingPlace_le (hM : 0 < M) (E : Int) : (10 : ℚ) ^ leadingPlace M E ≤ M * 2 ^ E := by
  have hden : (0 : ℚ) < step E 0 := by exact_mod_cast step_pos E 0
  have hvalue : (M * 2 ^ E : ℚ) = (M * unit E 0 : Nat) / step E 0 := by
    have hshare : share E 0 = 1 / step E 0 := by simp [share]
    push_cast
    rw [← unit_mul_share E 0, hshare]
    ring
  have hnum : 0 < M * unit E 0 := Nat.mul_pos hM (unit_pos E 0)
  rw [hvalue, le_div_iff₀ hden]
  simp only [leadingPlace]
  split
  · next hle =>
    have hquotient : 0 < M * unit E 0 / step E 0 := Nat.div_pos hle (step_pos E 0)
    have hcount := digitCount_pos hquotient
    have hpow : 10 ^ (digitCount (M * unit E 0 / step E 0) - 1) * step E 0 ≤ M * unit E 0 :=
      le_trans (Nat.mul_le_mul_right _ (pow_digitCount_le hquotient)) (Nat.div_mul_le_self _ _)
    have hexponent : (digitCount (M * unit E 0 / step E 0) : Int) - 1 =
        ((digitCount (M * unit E 0 / step E 0) - 1 : Nat) : Int) := by omega
    rw [hexponent, zpow_natCast]
    exact_mod_cast hpow
  · have hten : (0 : ℚ) < 10 ^ digitCount ((step E 0 - 1) / (M * unit E 0)) := by positivity
    have hbound : step E 0 ≤ M * unit E 0 * 10 ^ digitCount ((step E 0 - 1) / (M * unit E 0)) := by
      have hlt := lt_pow_digitCount ((step E 0 - 1) / (M * unit E 0))
      have hdiv := (Nat.div_lt_iff_lt_mul hnum).mp hlt
      have hpos := step_pos E 0
      rw [Nat.mul_comm]
      omega
    rw [zpow_neg, zpow_natCast, inv_mul_le_iff₀ hten, mul_comm]
    exact_mod_cast hbound

/-- On the grid of seventeen digits the nearest decimal is rounded to the float. -/
theorem roundsTo_of_seventeen (hc : Canonical M E) (tie : Tie) :
    RoundsTo M E (roundTo M E (leadingPlace M E - 16) tie * 10 ^ (leadingPlace M E - 16)) := by
  have hlead : (10 : ℚ) ^ (leadingPlace M E - 16) * 10 ^ 16 ≤ M * 2 ^ E := by
    have hsplit : (10 : ℚ) ^ leadingPlace M E = 10 ^ (leadingPlace M E - 16) * 10 ^ 16 := by
      rw [← zpow_natCast, ← zpow_add₀ (by norm_num)]
      congr 1
      omega
    rw [← hsplit]
    exact zpow_leadingPlace_le hc.pos E
  obtain ⟨habove, hbelow⟩ := roundDiv_near (M * unit E (leadingPlace M E - 16))
    (step E (leadingPlace M E - 16)) tie (step_pos _ _)
  change 2 * (roundTo M E (leadingPlace M E - 16) tie * step E (leadingPlace M E - 16)) ≤ _ at habove
  change _ ≤ 2 * (roundTo M E (leadingPlace M E - 16) tie * step E (leadingPlace M E - 16)) + _ at hbelow
  generalize leadingPlace M E - 16 = p at *
  generalize roundTo M E p tie = digits at *
  have hshare := (share_pos E p).le
  have hunit : (M * 2 ^ E : ℚ) = M * unit E p * share E p := by rw [mul_assoc, unit_mul_share]
  have hpoint : (digits * 10 ^ p : ℚ) = digits * step E p * share E p := by
    rw [mul_assoc, step_mul_share]
  have hup : (2 * (digits * 10 ^ p) : ℚ) ≤ 2 * (M * 2 ^ E) + 10 ^ p := by
    have hcast : (2 * (digits * step E p) : ℚ) ≤ 2 * (M * unit E p) + step E p := by
      exact_mod_cast habove
    have := mul_le_mul_of_nonneg_right hcast hshare
    rw [hpoint, hunit, ← step_mul_share E p]
    linarith
  have hdown : (2 * (M * 2 ^ E) : ℚ) ≤ 2 * (digits * 10 ^ p) + 10 ^ p := by
    have hcast : (2 * (M * unit E p) : ℚ) ≤ 2 * (digits * step E p) + step E p := by
      exact_mod_cast hbelow
    have := mul_le_mul_of_nonneg_right hcast hshare
    rw [hpoint, hunit, ← step_mul_share E p]
    linarith
  -- Half a step of this grid is less than the distance to either end of the interval.
  have hfine : (2 * M : ℚ) < lowerGap M E * 10 ^ 16 := by
    have hnat : 2 * M < lowerGap M E * 10 ^ 16 := by
      have hlt := hc.lt
      simp only [lowerGap, Nat.pow_eq]
      split <;> omega
    exact_mod_cast hnat
  have hgap : (lowerGap M E : ℚ) ≤ 2 := by exact_mod_cast lowerGap_le_two M E
  have hquarter : (0 : ℚ) < 2 ^ (E - 2) := by positivity
  rw [← four_mul_zpow E] at hlead hup hdown
  have hhalf : (10 : ℚ) ^ p < 2 * lowerGap M E * 2 ^ (E - 2) := by
    have := mul_lt_mul_of_pos_right hfine hquarter
    linarith
  have hends : (lowerGap M E * 2 ^ (E - 2) : ℚ) ≤ 2 * 2 ^ (E - 2) :=
    mul_le_mul_of_nonneg_right hgap hquarter.le
  have hlower : (4 * M - lowerGap M E : ℚ) * 2 ^ (E - 2) < digits * 10 ^ p := by linarith
  have hupper : (digits * 10 ^ p : ℚ) < (4 * M + 2) * 2 ^ (E - 2) := by linarith
  exact ⟨hlower.le, hupper.le, fun _ => hlower, fun _ => hupper⟩

/-- The shortest decimal of a float is rounded to it. -/
theorem roundsTo_shortest (hc : Canonical M E) (tie : Tie) :
    RoundsTo M E ((shortest M E tie).digits * 10 ^ (shortest M E tie).exponent) := by
  simp only [shortest]
  cases hfound : (List.range 17).findSome? fun (extra : Nat) =>
      (onGrid? M E tie (leadingPlace M E - extra)).map (⟨·, leadingPlace M E - extra⟩ : Nat → Decimal) with
  | none => exact roundsTo_of_seventeen hc tie
  | some d =>
    obtain ⟨extra, -, hgrid⟩ := List.exists_of_findSome?_eq_some hfound
    obtain ⟨digits, hdigits, rfl⟩ := Option.map_eq_some_iff.mp hgrid
    exact roundsTo_of_readsBack hc.pos (onGrid?_eq_some hdigits)

end EquationSolver.Decimal
