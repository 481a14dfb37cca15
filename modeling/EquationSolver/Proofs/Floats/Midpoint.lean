import EquationSolver.Proofs.Floats.Arithmetic

/-!
# Midpoints of floats

Half the sum of two floats lies between them as long as their doubles are finite. Where the double of
the greater one is infinite, the sum of the two may be as well.
-/

namespace EquationSolver.Floats

variable {x y : Float} {p q v : ℚ}

private theorem two_mul_zpow_1023 : 2 * (2 : ℚ) ^ (1023 : ℤ) = 2 ^ (1024 : ℤ) :=
  (zpow_one_add₀ two_ne_zero 1023).symm

private theorem representable_max (hx : x.isFinite = true) (hy : y.isFinite = true) :
    Representable (max |value x| |value y|) := by
  rcases max_choice |value x| |value y| with h | h
  · rw [h]
    exact (representable_value hx).1.abs
  · rw [h]
    exact (representable_value hy).1.abs

theorem isFinite_double_iff (hx : x.isFinite = true) :
    (x + x).isFinite = true ↔ |value x| < 2 ^ (1023 : ℤ) := by
  obtain ⟨v, hfaithful, hfinite, -⟩ := rounded_add hx hx
  rw [← two_mul] at hfaithful
  rw [hfinite, hfaithful.eq_self (representable_value hx).1.double, abs_mul, abs_two,
    ← two_mul_zpow_1023]
  exact mul_lt_mul_iff_right₀ (by norm_num)

private theorem isFinite_of_half (h : (x / 2.0).isFinite = true) : x.isFinite = true := by
  by_contra hx
  rw [isFinite_half_eq_false (Bool.eq_false_iff.mpr hx)] at h
  cases h

theorem half_abs_nonneg (h : (x.abs / 2.0).isFinite = true) : 0 ≤ value (x.abs / 2.0) := by
  obtain ⟨v, hfaithful, -, hvalue⟩ := rounded_half (isFinite_of_half h)
  rw [hvalue h]
  exact hfaithful.le_of_le representable_zero (by linarith [value_abs_nonneg x])

section Between

variable (hx : x.isFinite = true) (hy : y.isFinite = true) (hx' : |value x| < 2 ^ (1023 : ℤ))
  (hy' : |value y| < 2 ^ (1023 : ℤ))
include hx hy hx' hy'

private theorem Rounded.isFinite_of_abs_le {s : Float} (h : Rounded q s)
    (hq : |q| ≤ |value x| + |value y|) : s.isFinite = true := by
  have hmax : max |value x| |value y| < 2 ^ (1023 : ℤ) := max_lt hx' hy'
  have hleft := le_max_left |value x| |value y|
  have hright := le_max_right |value x| |value y|
  apply h.isFinite (representable_max hx hy).double
  · linarith
  · rw [← two_mul_zpow_1023]
    linarith

theorem midpoint_between (hle : value x ≤ value y) :
    ((x + y) / 2.0).isFinite = true ∧ value x ≤ value ((x + y) / 2.0) ∧
      value ((x + y) / 2.0) ≤ value y := by
  have hsum := rounded_add hx hy
  have hfinite := hsum.isFinite_of_abs_le hx hy hx' hy' (abs_add_le _ _)
  obtain ⟨s, hfaithful, -, hvalue⟩ := hsum
  have hlow := hfaithful.le_of_le (representable_value hx).1.double (by linarith)
  have hhigh := hfaithful.ge_of_ge (representable_value hy).1.double (by linarith)
  rw [← hvalue hfinite] at hlow hhigh
  obtain ⟨m, hfaithful', hfinite', hvalue'⟩ := rounded_half hfinite
  have hlow' := hfaithful'.le_of_le (representable_value hx).1 (by linarith)
  have hhigh' := hfaithful'.ge_of_ge (representable_value hy).1 (by linarith)
  have hhalf : ((x + y) / 2.0).isFinite = true := by
    rw [hfinite']
    apply lt_of_le_of_lt (abs_le_max_abs_abs hlow' hhigh')
    exact max_lt (representable_value hx).2 (representable_value hy).2
  rw [hvalue' hhalf]
  exact ⟨hhalf, hlow', hhigh'⟩

theorem isFinite_half_width : ((y - x).abs / 2.0).isFinite = true := by
  have hfinite : (y - x).isFinite = true :=
    (rounded_sub hy hx).isFinite_of_abs_le hx hy hx' hy' (by
      rw [add_comm]
      exact abs_sub _ _)
  obtain ⟨habs, -⟩ := isFinite_abs hfinite
  obtain ⟨hrepresentable, hlt⟩ := representable_value habs
  apply (rounded_half habs).isFinite hrepresentable.abs _ hlt
  rw [abs_div, abs_two]
  linarith [abs_nonneg (value (y - x).abs)]

end Between

section Overflow

variable {p q s m : ℚ}

private theorem zpow_1022 : (2 : ℚ) ^ (1022 : ℤ) = 2 ^ 52 * 2 ^ (970 : ℤ) := by
  rw [← zpow_natCast, ← zpow_add₀ two_ne_zero]
  rfl

private theorem zpow_1023 : (2 : ℚ) ^ (1023 : ℤ) = 2 ^ 53 * 2 ^ (970 : ℤ) := by
  rw [← zpow_natCast, ← zpow_add₀ two_ne_zero]
  rfl

private theorem zpow_971 : (2 : ℚ) ^ (971 : ℤ) = 2 * 2 ^ (970 : ℤ) :=
  zpow_one_add₀ two_ne_zero 970

private theorem Representable.eq_mul_zpow_970 (hp : Representable p) (hlow : 2 ^ (1022 : ℤ) ≤ p) :
    ∃ k : ℤ, p = k * 2 ^ (970 : ℤ) := by
  rcases hp.grid 970 with hgrid | ⟨hsmall, -⟩
  · exact hgrid
  · rw [zpow_1022] at hlow
    generalize (2 : ℚ) ^ (970 : ℤ) = unit at *
    exact ⟨2 ^ 52, by exact_mod_cast le_antisymm hsmall hlow⟩

private theorem Representable.add_zpow_971_le (hq : Representable q) (hlt : 2 ^ (1023 : ℤ) < q) :
    2 ^ (1023 : ℤ) + 2 ^ (971 : ℤ) ≤ q := by
  have hunit : (0 : ℚ) < 2 ^ (971 : ℤ) := by positivity
  have h1023 : (2 : ℚ) ^ (1023 : ℤ) = 2 ^ 52 * 2 ^ (971 : ℤ) := by
    rw [← zpow_natCast, ← zpow_add₀ two_ne_zero]
    rfl
  rw [h1023] at hlt ⊢
  rcases hq.grid 971 with ⟨j, rfl⟩ | ⟨hsmall, -⟩
  · generalize (2 : ℚ) ^ (971 : ℤ) = unit at *
    have hj : (2 ^ 52 : ℤ) < j := by exact_mod_cast lt_of_mul_lt_mul_right hlt hunit.le
    have hj' : (2 ^ 52 + 1 : ℚ) ≤ j := by exact_mod_cast hj
    calc
      2 ^ 52 * unit + unit = (2 ^ 52 + 1) * unit := by ring
      _ ≤ j * unit := mul_le_mul_of_nonneg_right hj' hunit.le
  · exact absurd hlt (not_lt.mpr hsmall)

/-- Towards a number of the greatest binade the midpoint moves, as long as the sum is finite. The two
neighbours whose sum lies halfway to the first power that is too large are left out. -/
theorem lt_of_faithful_half (hp : Representable p) (hq : Representable q)
    (hlarge : 2 ^ (1023 : ℤ) ≤ q) (hs : Faithful (p + q) s) (hfinite : |s| < 2 ^ (1024 : ℤ))
    (hm : Faithful (s / 2) m) (htie : p = 2 ^ (1023 : ℤ) - 2 ^ (970 : ℤ) → q ≠ 2 ^ (1023 : ℤ)) :
    p < m := by
  obtain ⟨unit, hunit⟩ : ∃ unit, unit = (2 : ℚ) ^ (970 : ℤ) := ⟨_, rfl⟩
  have hpos : 0 < unit := hunit ▸ by positivity
  have hmultiple : ∀ n : ℤ, |n| ≤ 2 ^ 53 → Representable (n * unit) := fun n hn =>
    ⟨n, 970, hn, by norm_num, by rw [hunit]⟩
  have htop : Representable (2 ^ 53 * unit) := by
    rw [hunit, ← zpow_1023]
    exact representable_zpow (by norm_num)
  have hhalf : Representable (2 ^ 52 * unit) := by
    rw [hunit, ← zpow_1022]
    exact representable_zpow (by norm_num)
  have hstep : 2 ^ 53 * unit < q → 2 ^ 53 * unit + 2 * unit ≤ q := by
    rw [hunit, ← zpow_1023, ← zpow_971]
    exact hq.add_zpow_971_le
  have hgrid : 2 ^ 52 * unit ≤ p → ∃ k : ℤ, p = k * unit := by
    rw [hunit, ← zpow_1022]
    exact hp.eq_mul_zpow_970
  rw [← two_mul_zpow_1023, zpow_1023, ← hunit] at hfinite
  rw [zpow_1023, ← hunit] at hlarge htie
  clear hunit
  have hrange : p + q < 2 * (2 ^ 53 * unit) := by
    by_contra hge
    have := hs.le_of_le htop.double (not_lt.mp hge)
    linarith [le_abs_self s]
  obtain ⟨hslow, -⟩ := abs_lt.mp hfinite
  rcases lt_or_ge p 0 with hneg | hnonneg
  · rcases le_or_gt 0 s with hs0 | hs0
    · exact lt_of_lt_of_le hneg (hm.le_of_le representable_zero (by linarith))
    · have hsum : p + q < 0 := by
        by_contra hge
        linarith [hs.le_of_le representable_zero (not_lt.mp hge)]
      have hmid := hm.le_of_le htop.neg (by linarith)
      linarith
  rcases lt_or_ge p (2 ^ 52 * unit) with hsmall | hbig
  · have hsum := hs.le_of_le htop (by linarith)
    have hmid := hm.le_of_le (p := 2 ^ 52 * unit) hhalf (by linarith)
    linarith
  · obtain ⟨k, rfl⟩ := hgrid hbig
    have hk : k < 2 ^ 53 := by
      have hlt : (k : ℚ) * unit < 2 ^ 53 * unit := by linarith
      exact_mod_cast lt_of_mul_lt_mul_right hlt hpos.le
    -- Two places up is still at most `q`, as the sum is not too large.
    have hnext : (k + 2) * unit ≤ q := by
      rcases hlarge.eq_or_lt with hq' | hq'
      · have hne : k ≠ 2 ^ 53 - 1 := by
          rintro rfl
          exact htie (by push_cast; ring) hq'.symm
        have hk' : ((k + 2 : ℤ) : ℚ) ≤ (2 ^ 53 : ℤ) := by exact_mod_cast (by omega : k + 2 ≤ 2 ^ 53)
        push_cast at hk'
        rw [← hq']
        exact mul_le_mul_of_nonneg_right hk' hpos.le
      · have hk' : (k : ℚ) ≤ (2 ^ 53 : ℤ) := by exact_mod_cast hk.le
        push_cast at hk'
        have := mul_le_mul_of_nonneg_right hk' hpos.le
        linarith [hstep hq']
    have hsucc : Representable ((k + 1) * unit) := by
      have hk0 : 0 ≤ k := by exact_mod_cast nonneg_of_mul_nonneg_left hnonneg hpos
      exact_mod_cast hmultiple (k + 1) (abs_le.mpr ⟨by omega, by omega⟩)
    have hsum := hs.le_of_le hsucc.double (by linarith)
    have hmid := hm.le_of_le hsucc (by linarith)
    linarith

open Float.Model Decimal

theorem unpack_eq_of_value_eq {M : Nat} {E : Int} {sign : UnpackedFloat.Sign} {hM : 0 < M}
    (hc : Canonical M E) (hx : x.isFinite = true) (h : value x = withSign sign (M * 2 ^ E)) :
    x.toModel.unpack = .finite sign M E hM := by
  have hproper := proper_unpack hx
  rw [value] at h
  cases hu : x.toModel.unpack with
  | infinity | notANumber =>
    rw [hu] at hproper
    exact hproper.elim
  | zero =>
    have hM' := mul_zpow_pos hM E
    rw [hu] at h
    cases sign <;> simp only [unpackedValue, withSign] at h <;> linarith
  | finite sign' N F hN =>
    rw [hu] at hproper h
    rw [unpackedValue_finite] at h
    have hM' := mul_zpow_pos hM E
    have hN' := mul_zpow_pos hN F
    obtain ⟨rfl, hvalue⟩ : sign' = sign ∧ (N * 2 ^ F : ℚ) = M * 2 ^ E := by
      cases sign' <;> cases sign <;> simp only [withSign] at h
      · exact ⟨rfl, neg_injective h⟩
      · linarith
      · linarith
      · exact ⟨rfl, h⟩
    have hcompare := compare_then hproper hc
    rw [compare_eq_iff_eq.mpr hvalue, Ordering.then_eq_eq] at hcompare
    obtain rfl := compare_eq_iff_eq.mp hcompare.1
    obtain rfl := compare_eq_iff_eq.mp hcompare.2
    rfl

private theorem canonical_below_top : Canonical (2 ^ 53 - 1) 970 :=
  ⟨by norm_num, by norm_num, by norm_num, by norm_num, .inl (by norm_num)⟩

private theorem canonical_top : Canonical (2 ^ 52) 971 :=
  ⟨by norm_num, by norm_num, by norm_num, by norm_num, .inl (by norm_num)⟩

private theorem isFinite_tie (sign : UnpackedFloat.Sign) (hx : x.isFinite = true) (hy : y.isFinite = true)
    (hx' : value x = withSign sign (2 ^ (1023 : ℤ) - 2 ^ (970 : ℤ)))
    (hy' : value y = withSign sign (2 ^ (1023 : ℤ))) :
    (x + y).isFinite = false ∧ (y + x).isFinite = false := by
  have hxu : x.toModel.unpack = .finite sign (2 ^ 53 - 1) 970 (by norm_num) :=
    unpack_eq_of_value_eq canonical_below_top hx (by
      rw [hx', zpow_1023]
      generalize (2 : ℚ) ^ (970 : ℤ) = unit
      congr 1
      norm_num
      ring)
  have hyu : y.toModel.unpack = .finite sign (2 ^ 52) 971 (by norm_num) :=
    unpack_eq_of_value_eq canonical_top hy (by
      rw [hy', zpow_1023, zpow_971]
      generalize (2 : ℚ) ^ (970 : ℤ) = unit
      congr 1
      norm_num
      ring)
  rw [add_eq, add_eq, hxu, hyu]
  cases sign with
  | positive => exact ⟨by decide +kernel, by decide +kernel⟩
  | negative => exact ⟨by decide +kernel, by decide +kernel⟩

section Moves

variable (hx : x.isFinite = true) (hy : y.isFinite = true)
  (hmid : ((x + y) / 2.0).isFinite = true)
include hx hy hmid

/-- Towards an end whose double is infinite a finite midpoint comes closer. -/
theorem lt_midpoint (hlarge : 2 ^ (1023 : ℤ) ≤ value y) : value x < value ((x + y) / 2.0) := by
  have hsum := isFinite_of_half hmid
  obtain ⟨s, hs, hfinite, hvalue⟩ := rounded_add hx hy
  obtain ⟨m, hm, -, hvalue'⟩ := rounded_half hsum
  rw [hvalue hsum] at hm
  rw [hvalue' hmid]
  apply lt_of_faithful_half (representable_value hx).1 (representable_value hy).1 hlarge hs
    (hfinite.mp hsum) hm
  intro hx' hy'
  rw [(isFinite_tie .positive hx hy hx' hy').1] at hsum
  cases hsum

theorem midpoint_lt (hlarge : value x ≤ -2 ^ (1023 : ℤ)) : value ((x + y) / 2.0) < value y := by
  have hsum := isFinite_of_half hmid
  obtain ⟨s, hs, hfinite, hvalue⟩ := rounded_add hx hy
  obtain ⟨m, hm, -, hvalue'⟩ := rounded_half hsum
  rw [hvalue hsum] at hm
  rw [hvalue' hmid]
  have hs' := hs.neg
  have hm' := hm.neg
  rw [neg_add_rev] at hs'
  rw [← neg_div] at hm'
  apply neg_lt_neg_iff.mp
  apply lt_of_faithful_half (representable_value hy).1.neg (representable_value hx).1.neg
    (le_neg.mp hlarge) hs' (by rw [abs_neg]; exact hfinite.mp hsum) hm'
  intro hy' hx'
  have htie := isFinite_tie .negative hy hx (neg_eq_iff_eq_neg.mp hy') (neg_eq_iff_eq_neg.mp hx')
  rw [htie.2] at hsum
  cases hsum

end Moves

end Overflow

end EquationSolver.Floats
