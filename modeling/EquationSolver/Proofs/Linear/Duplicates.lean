import EquationSolver.Proofs.Floats.Equal
import EquationSolver.Proofs.Linear.Growth

/-!
# Repeated equations

Two rows of equal coefficients stay equal as columns are eliminated, wherever the swaps take them, until
one of them is the row of a pivot. The other then becomes a row of zeros, which stays one and is left
for the last column at the latest. So a system that says something twice is refused.
-/

namespace EquationSolver.Linear

open Elimination Floats

variable {n : Nat}

/-- Whether the coefficients of two rows are the same numbers from a column on. -/
def Alike (rows : Rows Float n) (c : Nat) (r s : Fin n) : Prop :=
  ∀ j : Fin n, c ≤ j → value (rows.entry r j.castSucc) = value (rows.entry s j.castSucc)

def Vanishing (rows : Rows Float n) (c : Nat) (r : Fin n) : Prop :=
  ∀ j : Fin n, c ≤ j → value (rows.entry r j.castSucc) = 0

/-- Whether the rows from a place on do not determine as many unknowns: two of them are alike, or one
is left with zeros. -/
inductive Redundant (rows : Rows Float n) (c : Nat) : Prop
  | alike {r s : Fin n} (hne : r ≠ s) (hr : c ≤ r) (hs : c ≤ s) (h : Alike rows c r s)
  | vanishing {r : Fin n} (hr : c ≤ r) (h : Vanishing rows c r)

section Column

variable {rows : Rows Float n} {i r s : Fin n}

private theorem Alike.symm {c : Nat} (h : Alike rows c r s) : Alike rows c s r := fun j hj => (h j hj).symm

private theorem Redundant.pivoted (h : Redundant rows i) : Redundant (pivoted rows i) i := by
  have hback : ∀ k j, (Elimination.pivoted rows i).entry (Equiv.swap i (pivotRow rows i) k) j =
      rows.entry k j := by
    intro k j
    rw [entry_pivoted_swap, Equiv.swap_apply_self]
  cases h with
  | @alike r s hne hr hs h =>
    apply Redundant.alike ((Equiv.injective _).ne hne) (le_swap_pivotRow rows hr)
      (le_swap_pivotRow rows hs)
    intro j hj
    rw [hback, hback]
    exact h j hj
  | @vanishing r hr h =>
    apply Redundant.vanishing (le_swap_pivotRow rows hr)
    intro j hj
    rw [hback]
    exact h j hj

variable (hfinite : ∀ k j, (rows.entry k j).isFinite = true)
  (hcleared : ∀ v, Cleared rows i v → v.isFinite = true) (hleading : Leading rows i)
include hfinite hcleared hleading

private theorem Vanishing.clearBelow (hr : i < r) (h : Vanishing rows i r) :
    Vanishing (clearBelow rows i) (i + 1) r := by
  have hfactor : value (factor rows i r) = 0 :=
    value_div_of_zero (hfinite r _) (hfinite i _) hleading.ne_zero (h i le_rfl)
  intro j hj
  have hcolumn : i.castSucc ≤ j.castSucc := Nat.le_of_succ_le hj
  have hproduct : value (factor rows i r * rows.entry i j.castSucc) = 0 :=
    value_mul_of_zero (hcleared _ (.factor hr)) (hfinite i _) hfactor
  rw [entry_clearBelow, if_pos ⟨hr, hcolumn⟩]
  rw [value_sub_of_zero (hfinite r _) (hcleared _ (.product hr hcolumn)) (.inr hproduct), hproduct,
    sub_zero]
  exact h j (Nat.le_of_succ_le hj)

private theorem Alike.vanishing (hr : i < r) (h : Alike rows i r i) :
    Vanishing (Elimination.clearBelow rows i) (i + 1) r := by
  have hfactor : value (factor rows i r) = 1 :=
    value_div_self (hfinite r _) (hfinite i _) (h i le_rfl) hleading.ne_zero
  intro j hj
  have hcolumn : i.castSucc ≤ j.castSucc := Nat.le_of_succ_le hj
  have hproduct : value (factor rows i r * rows.entry i j.castSucc) = value (rows.entry i j.castSucc) :=
    value_one_mul (hcleared _ (.factor hr)) (hfinite i _) hfactor
  rw [entry_clearBelow, if_pos ⟨hr, hcolumn⟩]
  apply value_sub_self (hfinite r _) (hcleared _ (.product hr hcolumn))
  rw [hproduct]
  exact h j (Nat.le_of_succ_le hj)

private theorem Alike.clearBelow (hr : i < r) (hs : i < s) (h : Alike rows i r s) :
    Alike (clearBelow rows i) (i + 1) r s := by
  have hfactor : value (factor rows i r) = value (factor rows i s) :=
    value_div_congr (hfinite r _) (hfinite s _) (h i le_rfl) (hfinite i _) hleading.ne_zero
  intro j hj
  have hcolumn : i.castSucc ≤ j.castSucc := Nat.le_of_succ_le hj
  have hproduct : value (factor rows i r * rows.entry i j.castSucc) =
      value (factor rows i s * rows.entry i j.castSucc) :=
    value_mul_congr (hcleared _ (.factor hr)) (hcleared _ (.factor hs)) hfactor (hfinite i _)
  rw [entry_clearBelow, entry_clearBelow, if_pos ⟨hr, hcolumn⟩, if_pos ⟨hs, hcolumn⟩]
  exact value_sub_congr (hfinite r _) (hfinite s _) (h j (Nat.le_of_succ_le hj))
    (hcleared _ (.product hr hcolumn)) (hcleared _ (.product hs hcolumn)) hproduct

/-- A row too many stays one too many when a column is cleared. -/
theorem Redundant.clearBelow (h : Redundant rows i) : Redundant (clearBelow rows i) (i + 1) := by
  cases h with
  | @alike r s hne hr hs h =>
    rcases Fin.eq_or_lt_of_le hr with rfl | hr
    · have hs : i < s := lt_of_le_of_ne hs hne
      exact .vanishing hs (h.symm.vanishing hfinite hcleared hleading hs)
    · rcases Fin.eq_or_lt_of_le hs with rfl | hs
      · exact .vanishing hr (h.vanishing hfinite hcleared hleading hr)
      · exact .alike hne hr hs (h.clearBelow hfinite hcleared hleading hr hs)
  | @vanishing r hr h =>
    rcases Fin.eq_or_lt_of_le hr with rfl | hr
    · exact absurd (h i le_rfl) hleading.ne_zero
    · exact .vanishing hr (h.clearBelow hfinite hcleared hleading hr)

end Column

section Systems

variable {m : AugmentedMatrix Float}

private theorem Moderate.redundant_worked (hmoderate : Moderate m) (h : Redundant m.rows 0) {c : Nat}
    (hc : c ≤ m.size) (hlarge : ∀ k : Fin m.size, (k : Nat) < c → lacking m.rows k = false) :
    Redundant (worked m.rows c) c := by
  induction c with
  | zero => exact h
  | succ c ih =>
    obtain ⟨i, rfl⟩ : ∃ i : Fin m.size, c = i := ⟨⟨c, hc⟩, rfl⟩
    have hbefore := ih i.isLt.le fun k hk => hlarge k (Nat.lt_succ_of_lt hk)
    have hupto : ∀ k ≤ i, lacking m.rows k = false := fun k hk => hlarge k (Nat.lt_succ_of_le hk)
    have hbounded := hmoderate.boundedBy_pivoted fun k hk => hupto k hk.le
    rw [worked_succ, eliminated]
    exact hbefore.pivoted.clearBelow (fun k j => (hbounded k j).1)
      (fun v => hmoderate.isFinite_of_cleared hupto) (hmoderate.leading hupto)

/-- A row too many is met as the pivot's row in the last column, if not before. -/
theorem Moderate.pivot_eq_zero (hmoderate : Moderate m) (h : Redundant m.rows 0) {i : Fin m.size}
    (hlast : (i : Nat) + 1 = m.size) (hbefore : ∀ k < i, lacking m.rows k = false) :
    (pivot m.rows i == 0) = true := by
  have hpivot := (hmoderate.boundedBy_pivoted hbefore i i.castSucc).1
  have hleft := (hmoderate.redundant_worked h i.isLt.le hbefore).pivoted
  apply (eq_zero_iff_value_eq_zero hpivot).mpr
  cases hleft with
  | @alike r s hne hr hs => exact absurd (Fin.ext (by omega)) hne
  | @vanishing r hr hzero =>
    obtain rfl : r = i := Fin.ext (by omega)
    exact hzero r le_rfl

end Systems

/-- A moderate system in which two rows have the same coefficients is refused, whatever their constants.
If only the last column is left to refuse it, the pivot there is zero. -/
theorem singular_of_alike (m : AugmentedMatrix Float) (limits : SizeLimits)
    (hadmits : limits.admits m.size = true) (hmoderate : Moderate m) {r s : Fin m.size} (hne : r ≠ s)
    (hsame : ∀ j : Fin m.size, (m.rows.entry r j.castSucc == m.rows.entry s j.castSucc) = true) :
    ∃ i : Fin m.size, solve m limits = .error (.singular i (pivot m.rows i)) ∧
      lacking m.rows i = true ∧ ((i : Nat) + 1 = m.size → (pivot m.rows i == 0) = true) := by
  have halike : Alike m.rows 0 r s := fun j _ =>
    (beq_iff_value_eq (m.finite r _) (m.finite s _)).mp (hsame j)
  have hredundant : Redundant m.rows 0 := .alike hne (Nat.zero_le _) (Nat.zero_le _) halike
  rcases solve_cases m hadmits with ⟨-, -, -, hlarge⟩ | ⟨i, hsolve, hlacking, hbefore⟩
  · -- No row is left behind the last column.
    cases hmoderate.redundant_worked hredundant le_rfl fun k _ => hlarge k with
    | @alike r s hne hr hs => exact absurd r.isLt (by omega)
    | @vanishing r hr => exact absurd r.isLt (by omega)
  · exact ⟨i, hsolve, hlacking, fun hlast => hmoderate.pivot_eq_zero hredundant hlast hbefore⟩

def repeated : AugmentedMatrix Float :=
  ⟨4, #v[#v[0.1, 0.0, 0.3, -0.2, 1], #v[0.7, 0.2, -0.9, 0.5, 0], #v[-0.3, 1, 0.6, 0.1, 0.4],
    #v[0.1, -0.0, 0.3, -0.2, -1]], Nat.succ_pos 3, by decide +kernel⟩

theorem singular_repeated : Moderate repeated ∧
    ∃ i : Fin 4, solve repeated .standard = .error (.singular i (pivot repeated.rows i)) ∧
      lacking repeated.rows i = true ∧ ((i : Nat) + 1 = 4 → (pivot repeated.rows i == 0) = true) := by
  have hmoderate : Moderate repeated := by
    have hunit : (1 : ℚ) ≤ 2 ^ (971 : ℤ) := one_le_zpow₀ one_le_two (by norm_num)
    apply moderate_of_abs_le 1 (by decide +kernel)
    · rw [value_greatestFloat, value_one]
      change 1 ≤ (2 ^ 53 - 1) * (2 : ℚ) ^ (971 : ℤ) / 2 ^ 4
      generalize (2 : ℚ) ^ (971 : ℤ) = unit at *
      linarith
    · decide +kernel
  have hne : (0 : Fin 4) ≠ 3 := by decide
  exact ⟨hmoderate,
    singular_of_alike repeated .standard (by decide) hmoderate hne (by decide +kernel)⟩

end EquationSolver.Linear
