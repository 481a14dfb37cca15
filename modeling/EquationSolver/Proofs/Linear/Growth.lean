import EquationSolver.Proofs.Linear.FiniteRange
import Mathlib.Order.Interval.Finset.Fin

/-!
# The growth of the entries

With the pivot of greatest magnitude no factor is larger than one, so no entry is more than doubled by
the elimination of a column. Rounding changes nothing about that, since the double of a float is a
float again. Entries that leave room for so many doublings stay in the range of floats.
-/

namespace EquationSolver.Linear

open Elimination Floats

variable {n : Nat}

def greatestFloat : Float := 1.7976931348623157e308

theorem value_greatestFloat : value greatestFloat = (2 ^ 53 - 1) * 2 ^ (971 : ℤ) := by
  have hbits : greatestFloat = Float.ofBits 0x7FEFFFFFFFFFFFFF := by decide +kernel
  have hunpack : (Float.ofBits 0x7FEFFFFFFFFFFFFF).toModel.unpack =
      .finite .positive (2 ^ 53 - 1) 971 (by norm_num) := rfl
  rw [hbits, value, hunpack, unpackedValue_positive]
  norm_num

/-- Whether the entries of a system may be doubled once for each equation. -/
def Moderate (m : AugmentedMatrix Float) : Prop :=
  ∀ i j, |value (m.rows.entry i j)| ≤ value greatestFloat / 2 ^ m.size

def largest (m : AugmentedMatrix Float) (j : Fin (m.size + 1)) : ℚ :=
  Finset.univ.sup' ⟨⟨0, m.size_pos⟩, Finset.mem_univ _⟩ fun k => |value (m.rows.entry k j)|

/-- Whether all entries are floats within bounds for their columns. -/
def BoundedBy (rows : Rows Float n) (bound : Fin (n + 1) → ℚ) : Prop :=
  ∀ k j, (rows.entry k j).isFinite = true ∧ |value (rows.entry k j)| ≤ bound j

/-- Whether the pivot of a column has the greatest magnitude from its place on, and is not zero. -/
structure Leading (rows : Rows Float n) (i : Fin n) : Prop where
  ne_zero : value (rows.entry i i.castSucc) ≠ 0
  greatest : ∀ k, i ≤ k → |value (rows.entry k i.castSucc)| ≤ |value (rows.entry i i.castSucc)|

/-- What an elimination within the range of floats keeps: the factors in its log, also if the system
is refused, the rows behind so many columns, and all numbers that are formed to clear a column. -/
structure Contained (m : AugmentedMatrix Float) (limits : SizeLimits) : Prop where
  factor_le_one : ∀ target pivotRow factor, .eliminate target pivotRow factor ∈ (eliminate m limits).steps →
    factor.isFinite = true ∧ |value factor| ≤ 1
  bounded : ∀ c ≤ m.size, ∀ rows, (forward ((List.finRange m.size).take c) m.rows).2 = .ok rows →
    BoundedBy rows fun j => 2 ^ c * largest m j
  cleared_finite : ∀ (i : Fin m.size) rows,
    (forward ((List.finRange m.size).take i) m.rows).2 = .ok rows →
    Scalar.less (Scalar.magnitude ((pivoted rows i).entry i i.castSucc)) pivotTolerance = false →
    ∀ v, Cleared (pivoted rows i) i v → v.isFinite = true

section Column

variable {rows : Rows Float n} {bound : Fin (n + 1) → ℚ} {i : Fin n}

private theorem BoundedBy.pivoted (h : BoundedBy rows bound) (i : Fin n) :
    BoundedBy (pivoted rows i) bound := by
  intro k j
  rw [entry_pivoted_swap]
  exact h _ j

private theorem leading_pivoted
    (hfinite : ∀ k, i ≤ k → ((worked rows i).entry k i.castSucc).isFinite = true)
    (hlarge : lacking rows i = false) : Leading (pivoted (worked rows i) i) i where
  ne_zero := by
    apply value_pivot_ne_zero _ hlarge
    rw [pivot_eq]
    exact hfinite _ (le_pivotRow _ i)
  greatest _ hk := abs_value_le_pivot hfinite hk

variable (h : BoundedBy rows bound) (hleading : Leading rows i)
include h hleading

private theorem BoundedBy.factor {k : Fin n} (hk : i < k) :
    (factor rows i k).isFinite = true ∧ |value (factor rows i k)| ≤ 1 := by
  obtain ⟨hfinite, hle, -⟩ := isFinite_quotient (h k i.castSucc).1 (h i i.castSucc).1 hleading.ne_zero
    (hleading.greatest k hk.le)
  exact ⟨hfinite, hle⟩

private theorem BoundedBy.product {k : Fin n} (hk : i < k) (j : Fin (n + 1)) :
    (Elimination.factor rows i k * rows.entry i j).isFinite = true ∧
      |value (Elimination.factor rows i k * rows.entry i j)| ≤ bound j := by
  obtain ⟨hfactor, hfactor_le⟩ := h.factor hleading hk
  obtain ⟨hproduct, hproduct_le⟩ := product_within hfactor (h i j).1 hfactor_le
  exact ⟨hproduct, hproduct_le.trans (h i j).2⟩

variable (hrepresentable : ∀ j, Representable (bound j)) (hroom : ∀ j, 2 * bound j < 2 ^ (1024 : ℤ))
include hrepresentable hroom

private theorem BoundedBy.difference {k : Fin n} (hk : i < k) (j : Fin (n + 1)) :
    (rows.entry k j - Elimination.factor rows i k * rows.entry i j).isFinite = true ∧
      |value (rows.entry k j - Elimination.factor rows i k * rows.entry i j)| ≤ 2 * bound j := by
  obtain ⟨hproduct, hproduct_le⟩ := h.product hleading hk j
  exact difference_within (h k j).1 hproduct (hrepresentable j) (h k j).2 hproduct_le (hroom j)

private theorem BoundedBy.isFinite_of_cleared {v : Float} (hv : Cleared rows i v) : v.isFinite = true := by
  cases hv with
  | factor hk => exact (h.factor hleading hk).1
  | product hk => exact (h.product hleading hk _).1
  | difference hk => exact (h.difference hleading hrepresentable hroom hk _).1

private theorem BoundedBy.clearBelow : BoundedBy (clearBelow rows i) fun j => 2 * bound j := by
  intro k j
  rw [entry_clearBelow]
  split
  · next hboth => exact h.difference hleading hrepresentable hroom hboth.1 j
  · have hnonneg : 0 ≤ bound j := le_trans (abs_nonneg _) (h k j).2
    exact ⟨(h k j).1, le_trans (h k j).2 (by linarith)⟩

end Column

section Columns

variable {rows : Rows Float n} {bound : Fin (n + 1) → ℚ}

private theorem representable_pow_mul {p : ℚ} (h : Representable p) (c : Nat) :
    Representable (2 ^ c * p) := by
  induction c with
  | zero => rwa [pow_zero, one_mul]
  | succ c ih =>
    rw [pow_succ', mul_assoc]
    exact ih.double

/-- Every column that is eliminated at most doubles the entries. -/
theorem boundedBy_worked (h : BoundedBy rows bound) (hrepresentable : ∀ j, Representable (bound j))
    {c : Nat} (hc : c ≤ n) (hroom : ∀ j, 2 ^ c * bound j < 2 ^ (1024 : ℤ))
    (hlarge : ∀ k : Fin n, (k : Nat) < c → lacking rows k = false) :
    BoundedBy (worked rows c) fun j => 2 ^ c * bound j := by
  induction c with
  | zero => simpa [worked] using h
  | succ c ih =>
    obtain ⟨i, rfl⟩ : ∃ i : Fin n, c = i := ⟨⟨c, hc⟩, rfl⟩
    simp only [pow_succ', mul_assoc] at hroom ⊢
    have hbefore : BoundedBy (worked rows i) fun j => 2 ^ (i : Nat) * bound j := by
      apply ih (by omega) _ fun k hk => hlarge k (by omega)
      intro j
      have hbound : 0 ≤ bound j := le_trans (abs_nonneg _) (h i j).2
      have hnonneg : 0 ≤ 2 ^ (i : Nat) * bound j := by positivity
      exact lt_of_le_of_lt (le_mul_of_one_le_left hnonneg one_le_two) (hroom j)
    have hleading := leading_pivoted (fun k _ => (hbefore k _).1) (hlarge i (Nat.lt_succ_self _))
    rw [worked_succ, eliminated]
    exact (hbefore.pivoted i).clearBelow hleading (fun j => representable_pow_mul (hrepresentable j) i)
      hroom

end Columns

section Systems

variable {m : AugmentedMatrix Float}

private theorem boundedBy_largest (m : AugmentedMatrix Float) : BoundedBy m.rows (largest m) := fun k j =>
  ⟨m.finite k j, Finset.le_sup' (fun k => |value (m.rows.entry k j)|) (Finset.mem_univ k)⟩

private theorem representable_largest (m : AugmentedMatrix Float) (j : Fin (m.size + 1)) :
    Representable (largest m j) := by
  obtain ⟨k, -, hk⟩ := Finset.exists_mem_eq_sup' ⟨⟨0, m.size_pos⟩, Finset.mem_univ _⟩
    fun k => |value (m.rows.entry k j)|
  rw [largest, hk]
  exact (representable_value (m.finite k j)).1.abs

theorem moderate_of_abs_le (bound : Float) (hbound : bound.isFinite = true)
    (hroom : value bound ≤ value greatestFloat / 2 ^ m.size)
    (habs : ∀ i j, (m.rows.entry i j).abs ≤ bound) : Moderate m := by
  intro i j
  obtain ⟨hfinite, hvalue⟩ := isFinite_abs (m.finite i j)
  have hle := (le_iff_value_le hfinite hbound).mp (habs i j)
  rw [hvalue] at hle
  exact hle.trans hroom

private theorem Moderate.room (h : Moderate m) {c : Nat} (hc : c ≤ m.size) (j : Fin (m.size + 1)) :
    2 ^ c * largest m j < 2 ^ (1024 : ℤ) := by
  have hlargest : largest m j ≤ value greatestFloat / 2 ^ m.size :=
    Finset.sup'_le _ _ fun k _ => h k j
  have hnonneg : 0 ≤ largest m j :=
    le_trans (abs_nonneg _) (boundedBy_largest m ⟨0, m.size_pos⟩ j).2
  calc
    2 ^ c * largest m j ≤ 2 ^ m.size * largest m j :=
      mul_le_mul_of_nonneg_right (pow_le_pow_right₀ one_le_two hc) hnonneg
    _ ≤ 2 ^ m.size * (value greatestFloat / 2 ^ m.size) :=
      mul_le_mul_of_nonneg_left hlargest (by positivity)
    _ = value greatestFloat := mul_div_cancel₀ _ (by positivity)
    _ ≤ |value greatestFloat| := le_abs_self _
    _ < 2 ^ (1024 : ℤ) := (representable_value (by decide +kernel)).2

private theorem Moderate.boundedBy_worked (h : Moderate m) {c : Nat} (hc : c ≤ m.size)
    (hlarge : ∀ k : Fin m.size, (k : Nat) < c → lacking m.rows k = false) :
    BoundedBy (worked m.rows c) fun j => 2 ^ c * largest m j :=
  Linear.boundedBy_worked (boundedBy_largest m) (representable_largest m) hc (h.room hc) hlarge

theorem Moderate.boundedBy_pivoted (h : Moderate m) {i : Fin m.size}
    (hbefore : ∀ k < i, lacking m.rows k = false) :
    BoundedBy (pivoted (worked m.rows i) i) fun j => 2 ^ (i : Nat) * largest m j :=
  (h.boundedBy_worked i.isLt.le hbefore).pivoted i

theorem Moderate.leading (h : Moderate m) {i : Fin m.size} (hlarge : ∀ k ≤ i, lacking m.rows k = false) :
    Leading (pivoted (worked m.rows i) i) i :=
  leading_pivoted (fun k _ => (h.boundedBy_worked i.isLt.le (fun k hk => hlarge k hk.le) k _).1)
    (hlarge i le_rfl)

theorem Moderate.isFinite_of_cleared (h : Moderate m) {i : Fin m.size}
    (hlarge : ∀ k ≤ i, lacking m.rows k = false) {v : Float}
    (hv : Cleared (pivoted (worked m.rows i) i) i v) : v.isFinite = true := by
  apply (h.boundedBy_pivoted fun k hk => hlarge k hk.le).isFinite_of_cleared (h.leading hlarge) _ _ hv
  · exact fun j => representable_pow_mul (representable_largest m j) i
  · intro j
    rw [← mul_assoc, ← pow_succ']
    exact h.room i.isLt j

private theorem factor_of_mem_steps {limits : SizeLimits} {target pivotRow : Nat} {f : Float}
    (h : .eliminate target pivotRow f ∈ (eliminate m limits).steps) :
    ∃ i k : Fin m.size, i < k ∧ (∀ l ≤ i, lacking m.rows l = false) ∧
      f = factor (pivoted (worked m.rows i) i) i k := by
  have hforward : .eliminate target pivotRow f ∈ (forward (List.finRange m.size) m.rows).1 := by
    simp only [eliminate] at h
    split at h
    · split at h
      · next heq =>
        rw [heq]
        simpa using h
      · next heq =>
        rw [heq]
        simpa [resolvedSteps] using h
    · cases h
  obtain ⟨i, k, hk, hlarge, hf⟩ := mem_forward_eliminate m.rows (Nat.zero_le m.size) hforward
  exact ⟨i, k, hk, fun l hl => hlarge l (Nat.zero_le _) hl, hf⟩

end Systems

/-- Eliminating a moderate system keeps within the range of floats: no factor is larger than one, each
column at most doubles the largest magnitudes, and nothing that is formed on the way overflows. -/
theorem contained_of_moderate (m : AugmentedMatrix Float) (limits : SizeLimits) (h : Moderate m) :
    Contained m limits where
  factor_le_one target pivotRow factor hmem := by
    obtain ⟨i, k, hk, hlarge, rfl⟩ := factor_of_mem_steps hmem
    exact (h.boundedBy_pivoted fun k hk => hlarge k hk.le).factor (h.leading hlarge) hk
  bounded c hc rows hrows := by
    obtain ⟨rfl, hlarge⟩ := (forward_take m.rows hc).mp hrows
    exact h.boundedBy_worked hc hlarge
  cleared_finite i rows hrows hpivot v hv := by
    obtain ⟨rfl, hbefore⟩ := (forward_take m.rows i.isLt.le).mp hrows
    have hlarge : ∀ k ≤ i, lacking m.rows k = false := by
      intro k hk
      rcases hk.eq_or_lt with rfl | hlt
      · exact hpivot
      · exact hbefore k hlt
    exact h.isFinite_of_cleared hlarge hv

def massive : AugmentedMatrix Float :=
  ⟨2, #v[#v[2.2e307, -2.2e307, 1e307], #v[2.2e307, 2.2e307, -1.0]], Nat.two_pos, by decide +kernel⟩

private theorem value_twoPow1021 : value (Float.ofBits 0x7FC0000000000000) = 2 ^ 50 * 2 ^ (971 : ℤ) := by
  have hunpack : (Float.ofBits 0x7FC0000000000000).toModel.unpack =
      .finite .positive (2 ^ 52) 969 (by norm_num) := rfl
  have hscale : (2 : ℚ) ^ (971 : ℤ) = 2 ^ 2 * 2 ^ (969 : ℤ) := by
    rw [← zpow_natCast, ← zpow_add₀ two_ne_zero]
    rfl
  rw [value, hunpack, unpackedValue_positive, hscale, ← mul_assoc, ← pow_add]
  congr 1

theorem contained_massive : Moderate massive ∧
    ∃ rows, (forward ((List.finRange 2).take 1) massive.rows).2 = .ok rows ∧
      (rows.entry 1 1 == 4.4e307) = true ∧ BoundedBy rows fun j => 2 ^ 1 * largest massive j := by
  have hmoderate : Moderate massive := by
    apply moderate_of_abs_le (Float.ofBits 0x7FC0000000000000) (by decide +kernel)
    · have hunit : (0 : ℚ) < 2 ^ (971 : ℤ) := by positivity
      rw [value_greatestFloat, value_twoPow1021]
      change 2 ^ 50 * (2 : ℚ) ^ (971 : ℤ) ≤ (2 ^ 53 - 1) * (2 : ℚ) ^ (971 : ℤ) / 2 ^ 2
      generalize (2 : ℚ) ^ (971 : ℤ) = unit at *
      linarith
    · decide +kernel
  have hcheck : ((forward ((List.finRange 2).take 1) massive.rows).2.toOption.any
      fun rows => rows.entry 1 1 == 4.4e307) = true := by decide +kernel
  cases hrows : (forward ((List.finRange 2).take 1) massive.rows).2 with
  | error error =>
    rw [hrows] at hcheck
    cases hcheck
  | ok rows =>
    rw [hrows] at hcheck
    refine ⟨hmoderate, rows, rfl, hcheck, ?_⟩
    exact (contained_of_moderate massive .standard hmoderate).bounded 1 (by decide) rows hrows

end EquationSolver.Linear
