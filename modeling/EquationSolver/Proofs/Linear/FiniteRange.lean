import EquationSolver.Proofs.Floats.Range
import EquationSolver.Proofs.Linear.Replay

/-!
# Eliminations that leave the range of floats

An elimination of finite entries may form numbers that are not finite, and return them. What is not
finite is kept by sums, differences and products, and by the numerator of a quotient; only a divisor
can hide it. So everything that was formed is finite if the pivots and the values are.
-/

namespace EquationSolver.Linear

open Elimination Floats

variable {n : Nat}

def Step.Finite : Step Float → Prop
  | .eliminate _ _ factor => factor.isFinite = true
  | .resolved _ value => value.isFinite = true
  | .initial | .swap _ _ | .backSubstitution => True

structure Solution.Finite (s : Solution Float) : Prop where
  values : ∀ v ∈ s.values, v.isFinite = true
  steps : ∀ step ∈ s.steps, step.Finite

/-- The numbers that are formed to clear a column below its pivot. -/
inductive Cleared (rows : Rows Float n) (i : Fin n) : Float → Prop
  | factor {k : Fin n} (hk : i < k) : Cleared rows i (factor rows i k)
  | product {k : Fin n} {j : Fin (n + 1)} (hk : i < k) (hj : i.castSucc ≤ j) :
      Cleared rows i (Elimination.factor rows i k * rows.entry i j)
  | difference {k : Fin n} {j : Fin (n + 1)} (hk : i < k) (hj : i.castSucc ≤ j) :
      Cleared rows i (rows.entry k j - Elimination.factor rows i k * rows.entry i j)

/-- The terms of an equation that are known when its own unknown is resolved. -/
def knownTerms (rows : Rows Float n) (i : Fin n) : List Float :=
  (after i).map fun j => rows.entry i j.castSucc * unknown rows j

/-- The numbers that are formed by back substitution. -/
inductive Substituted (rows : Rows Float n) : Float → Prop
  | term {i : Fin n} {v : Float} (hv : v ∈ knownTerms rows i) : Substituted rows v
  | partialSum {i : Fin n} {earlier later : List Float}
      (hsplit : knownTerms rows i = earlier ++ later) : Substituted rows (Scalar.sum earlier)
  | difference (i : Fin n) :
      Substituted rows (rows.entry i (Fin.last n) - Scalar.sum (knownTerms rows i))
  | value (i : Fin n) : Substituted rows (unknown rows i)

/-- The numbers that are formed to solve a system. A column is cleared if neither its pivot nor one
before it is too small, and values are substituted if no pivot is. -/
inductive Formed (m : AugmentedMatrix Float) : Float → Prop
  | cleared {i : Fin m.size} {v : Float} (hpivots : ∀ k ≤ i, lacking m.rows k = false)
      (hv : Cleared (pivoted (worked m.rows i) i) i v) : Formed m v
  | substituted {v : Float} (hpivots : ∀ k, lacking m.rows k = false)
      (hv : Substituted (worked m.rows m.size) v) : Formed m v

def LeavesRange (m : AugmentedMatrix Float) : Prop :=
  ∃ v, Formed m v ∧ v.isFinite = false

section Substitution

variable {rows : Rows Float n} {i : Fin n}

private theorem unknown_eq (rows : Rows Float n) (i : Fin n) : unknown rows i =
    (rows.entry i (Fin.last n) - Scalar.sum (knownTerms rows i)) / rows.entry i i.castSucc := by
  rw [unknown_eq_resolve, resolve, List.zipWith_map_right, List.zipWith_self, knownTerms]

private theorem isFinite_of_sum {terms : List Float} (h : (Scalar.sum terms).isFinite = true) :
    (∀ t ∈ terms, t.isFinite = true) ∧
      ∀ earlier later, terms = earlier ++ later → (Scalar.sum earlier).isFinite = true := by
  induction terms using List.reverseRecOn with
  | nil =>
    refine ⟨fun t ht => (List.not_mem_nil ht).elim, fun earlier later hsplit => ?_⟩
    obtain ⟨rfl, -⟩ := List.append_eq_nil_iff.mp hsplit.symm
    exact h
  | append_singleton terms last ih =>
    have hsum : Scalar.sum (terms ++ [last]) = Scalar.sum terms + last := List.foldl_concat ..
    have hboth := isFinite_of_add (hsum ▸ h)
    obtain ⟨hterms, hpartial⟩ := ih hboth.1
    constructor
    · intro t ht
      rcases List.mem_append.mp ht with ht | ht
      · exact hterms t ht
      · rw [List.mem_singleton.mp ht]
        exact hboth.2
    · intro earlier later hsplit
      rcases List.eq_nil_or_concat' later with rfl | ⟨later, last', rfl⟩
      · rw [List.append_nil] at hsplit
        exact hsplit ▸ h
      · rw [← List.append_assoc] at hsplit
        exact hpartial earlier later (List.append_inj_left' hsplit rfl)

private theorem isFinite_of_unknown (h : (unknown rows i).isFinite = true) :
    (rows.entry i (Fin.last n)).isFinite = true ∧
      (Scalar.sum (knownTerms rows i)).isFinite = true := by
  rw [unknown_eq] at h
  exact isFinite_of_sub (isFinite_of_div h)

/-- The rows that lead to finite values are finite from the pivots on. -/
theorem isFinite_triangle (hvalues : ∀ i, (unknown rows i).isFinite = true)
    (hpivots : ∀ i : Fin n, (rows.entry i i.castSucc).isFinite = true) {j : Fin (n + 1)}
    (hj : i.castSucc ≤ j) : (rows.entry i j).isFinite = true := by
  obtain ⟨hlast, hsum⟩ := isFinite_of_unknown (hvalues i)
  induction j using Fin.lastCases with
  | last => exact hlast
  | cast j =>
    rcases (Fin.castSucc_le_castSucc_iff.mp hj).eq_or_lt with rfl | hlt
    · exact hpivots i
    · have hterm := (isFinite_of_sum hsum).1 _ (List.mem_map_of_mem (mem_after.mpr hlt))
      exact (isFinite_of_mul hterm).1

private theorem isFinite_of_substituted (hvalues : ∀ i, (unknown rows i).isFinite = true) {v : Float}
    (hv : Substituted rows v) : v.isFinite = true := by
  have hsum := fun i => isFinite_of_sum (isFinite_of_unknown (hvalues i)).2
  cases hv with
  | @term i _ hv => exact (hsum i).1 _ hv
  | @partialSum i earlier later hsplit => exact (hsum i).2 earlier later hsplit
  | difference i =>
    have h := hvalues i
    rw [unknown_eq] at h
    exact isFinite_of_div h
  | value i => exact hvalues i

end Substitution

section Columns

variable {rows : Rows Float n} {i : Fin n}

private theorem isFinite_pivoted (hpivotRow : ∀ j, i.castSucc ≤ j → (rows.entry i j).isFinite = true)
    (hbelow : ∀ k j, i < k → i.castSucc < j →
      (rows.entry k j - factor rows i k * rows.entry i j).isFinite = true) {k : Fin n}
    (hk : i ≤ k) {j : Fin (n + 1)} (hj : i.castSucc ≤ j) : (rows.entry k j).isFinite = true := by
  rcases hk.eq_or_lt with rfl | hk
  · exact hpivotRow j hj
  · rcases hj.eq_or_lt with rfl | hj
    · -- A row whose entry in the pivot's column is not finite is lost as a whole.
      have hlast := hbelow k (Fin.last n) hk (Fin.castSucc_lt_last i)
      exact isFinite_of_div (isFinite_of_mul (isFinite_of_sub hlast).2).1
    · exact (isFinite_of_sub (hbelow k j hk hj)).1

/-- If the rows behind all columns are finite from the pivots on, so was every row while it was
worked on. -/
theorem isFinite_worked (htriangle : ∀ i j, i.castSucc ≤ j → ((worked rows n).entry i j).isFinite = true)
    {c : Nat} (hc : c ≤ n) {k : Fin n} {j : Fin (n + 1)} (hk : c ≤ k) (hj : c ≤ j) :
    ((worked rows c).entry k j).isFinite = true := by
  -- From the last column back to the first.
  induction hd : n - c generalizing c k j with
  | zero => omega
  | succ d ih =>
    obtain ⟨i, rfl⟩ : ∃ i : Fin n, c = i := ⟨⟨c, by omega⟩, rfl⟩
    rw [← Equiv.swap_apply_self i (pivotRow (worked rows i) i) k, ← entry_pivoted_swap]
    apply isFinite_pivoted _ _ (le_swap_pivotRow _ hk) hj
    · intro j hj
      rw [← entry_worked_of_lt rows i.isLt (Nat.le_refl n)]
      exact htriangle i j hj
    · intro k j hk hj
      rw [← entry_worked_succ rows hk hj.le]
      exact ih i.isLt hk hj (by omega)

private theorem less_magnitude_iff {x y : Float} (hx : x.isFinite = true) (hy : y.isFinite = true) :
    Scalar.less (Scalar.magnitude x) (Scalar.magnitude y) = true ↔ |value x| < |value y| := by
  rw [← (isFinite_abs hx).2, ← (isFinite_abs hy).2,
    ← lt_iff_value_lt (isFinite_abs hx).1 (isFinite_abs hy).1]
  exact decide_eq_true_iff

theorem value_pivot_ne_zero (hfinite : (pivot rows i).isFinite = true) (h : lacking rows i = false) :
    value (pivot rows i) ≠ 0 := by
  intro hzero
  have hlt : (0.0 : Float) < 1e-10 := by decide +kernel
  have htolerance : (1e-10 : Float).isFinite = true ∧ 0 < value 1e-10 :=
    ⟨by decide +kernel, (lt_iff_value_lt (by decide) (by decide +kernel)).mp hlt⟩
  have hsmall : (pivot rows i).abs < 1e-10 := by
    rw [lt_iff_value_lt (isFinite_abs hfinite).1 htolerance.1, (isFinite_abs hfinite).2, hzero, abs_zero]
    exact htolerance.2
  exact ne_true_of_eq_false h (decide_eq_true hsmall)

theorem abs_value_le_pivot
    (hcolumn : ∀ k, i ≤ k → ((worked rows i).entry k i.castSucc).isFinite = true) {k : Fin n}
    (hk : i ≤ k) :
    |value ((pivoted (worked rows i) i).entry k i.castSucc)| ≤ |value (pivot rows i)| := by
  rw [entry_pivoted_swap, pivot_eq]
  refine key_le_pivotRow (fun k => |value ((worked rows i).entry k i.castSucc)|) ?_ (le_swap_pivotRow _ hk)
  intro j k hj hk
  exact less_magnitude_iff (hcolumn j hj) (hcolumn k hk)

private theorem isFinite_of_cleared (hlarge : lacking rows i = false)
    (hblock : ∀ k j, i ≤ k → i.castSucc ≤ j → ((worked rows i).entry k j).isFinite = true)
    (hnext : ∀ k j, i < k → i.castSucc < j → ((worked rows (i + 1)).entry k j).isFinite = true) {v : Float}
    (hv : Cleared (pivoted (worked rows i) i) i v) : v.isFinite = true := by
  have hpivoted : ∀ k, i ≤ k → ((pivoted (worked rows i) i).entry k i.castSucc).isFinite = true := by
    intro k hk
    rw [entry_pivoted_swap]
    exact hblock _ _ (le_swap_pivotRow _ hk) le_rfl
  have hlargest := fun k (hk : i ≤ k) => abs_value_le_pivot (fun k hk => hblock k _ hk le_rfl) hk
  have hzero := value_pivot_ne_zero (hpivoted i le_rfl) hlarge
  -- The pivot's own column is cleared within the magnitude of the pivot.
  have hcolumn : ∀ k, i < k → _ := fun k hk =>
    isFinite_cleared (hpivoted k hk.le) (hpivoted i le_rfl) hzero (hlargest k hk.le)
  have hbehind : ∀ k j, i < k → i.castSucc < j → ((pivoted (worked rows i) i).entry k j -
      factor (pivoted (worked rows i) i) i k * (pivoted (worked rows i) i).entry i j).isFinite = true := by
    intro k j hk hj
    rw [← entry_worked_succ rows hk hj.le]
    exact hnext k j hk hj
  cases hv with
  | @factor k hk => exact (hcolumn k hk).1
  | @product k j hk hj =>
    rcases hj.eq_or_lt with rfl | hj
    · exact (hcolumn k hk).2.1
    · exact (isFinite_of_sub (hbehind k j hk hj)).2
  | @difference k j hk hj =>
    rcases hj.eq_or_lt with rfl | hj
    · exact (hcolumn k hk).2.2
    · exact hbehind k j hk hj

end Columns

variable {m : AugmentedMatrix Float}

private theorem isFinite_of_formed (hvalues : ∀ i, (unknown (worked m.rows m.size) i).isFinite = true)
    (hpivots : ∀ i, (pivot m.rows i).isFinite = true) {v : Float} (hv : Formed m v) :
    v.isFinite = true := by
  have htriangle : ∀ (i : Fin m.size) j, i.castSucc ≤ j →
      ((worked m.rows m.size).entry i j).isFinite = true := by
    intro i j hj
    apply isFinite_triangle hvalues _ hj
    intro i
    rw [entry_worked_of_lt m.rows i.isLt (Nat.le_refl _)]
    exact hpivots i
  cases hv with
  | @cleared i _ hlarge hv =>
    apply isFinite_of_cleared (hlarge i le_rfl) _ _ hv
    · intro k j hk hj
      exact isFinite_worked htriangle i.isLt.le hk hj
    · intro k j hk hj
      exact isFinite_worked htriangle i.isLt hk hj
  | substituted _ hv => exact isFinite_of_substituted hvalues hv

private theorem isFinite_pivot (hlarge : ∀ k, lacking m.rows k = false) (hrange : ¬LeavesRange m)
    (i : Fin m.size) : (pivot m.rows i).isFinite = true := by
  have hle := le_pivotRow (worked m.rows i) i
  rw [pivot_eq]
  rcases hi : (i : Nat) with _ | c
  · exact m.finite _ _
  · obtain ⟨l, rfl⟩ : ∃ l : Fin m.size, c = l := ⟨⟨c, by omega⟩, rfl⟩
    rw [hi] at hle
    have hrow : l < pivotRow (worked m.rows (l + 1)) i := by omega
    have hcolumn : l.castSucc ≤ i.castSucc := by
      simp only [Fin.le_def, Fin.val_castSucc]
      omega
    by_contra hinfinite
    refine hrange ⟨_, .cleared (i := l) (fun k _ => hlarge k) (.difference hrow hcolumn), ?_⟩
    rw [← entry_worked_succ m.rows hrow hcolumn]
    exact Bool.eq_false_iff.mpr hinfinite

private theorem Log.finite_of_mem_steps {log : Log Float n}
    (hfactors : ∀ i k, i < k → (log.factor i k).isFinite = true)
    (hvalues : ∀ i, (log.value i).isFinite = true) {step : Step Float} (h : step ∈ log.steps) :
    step.Finite := by
  simp only [Log.steps, Log.columns, Log.swaps, Log.eliminations, Log.resolutions, List.mem_cons,
    List.mem_append, List.mem_flatMap, List.mem_map] at h
  rcases h with rfl | ⟨i, -, ⟨other, -, rfl⟩ | ⟨k, hk, rfl⟩⟩ | rfl | ⟨i, -, rfl⟩
  · trivial
  · trivial
  · exact hfactors i k (mem_after.mp hk)
  · trivial
  · exact hvalues i

/-- A system is solved in the range of floats, or refused, just if the values and the pivots of its
solution are finite. -/
theorem finite_iff_pivots_finite (m : AugmentedMatrix Float) (limits : SizeLimits) :
    (∀ s, solve m limits = .ok s → s.Finite) ∧
        (LeavesRange m → ∃ e, solve m limits = .error e) ↔
      ∀ s, solve m limits = .ok s →
        (∀ v ∈ s.values, v.isFinite = true) ∧ ∀ i, (pivot m.rows i).isFinite = true := by
  constructor
  · rintro ⟨hsolved, hrefused⟩ s hs
    have hrange : ¬LeavesRange m := by
      intro hleaves
      obtain ⟨e, he⟩ := hrefused hleaves
      rw [hs] at he
      cases he
    exact ⟨(hsolved s hs).values, isFinite_pivot (log_of_solve hs).1 hrange⟩
  · intro h
    have hformed : ∀ s, solve m limits = .ok s → ∀ v, Formed m v → v.isFinite = true := by
      intro s hs v hv
      obtain ⟨hvalues, hpivots⟩ := h s hs
      refine isFinite_of_formed (fun i => hvalues _ ?_) hpivots hv
      rw [(log_of_solve hs).2.1]
      exact List.mem_ofFn.mpr ⟨i, rfl⟩
    constructor
    · intro s hs
      obtain ⟨hlarge, hlist, hsteps⟩ := log_of_solve hs
      have hvalues := (h s hs).1
      refine ⟨hvalues, fun step hstep => ?_⟩
      rw [hsteps] at hstep
      apply Log.finite_of_mem_steps _ _ hstep
      · intro i k hk
        exact hformed s hs _ (.cleared (fun l _ => hlarge l) (.factor hk))
      · intro i
        exact hvalues _ (by rw [hlist]; exact List.mem_ofFn.mpr ⟨i, rfl⟩)
    · rintro ⟨v, hv, hinfinite⟩
      cases hs : solve m limits with
      | error e => exact ⟨e, rfl⟩
      | ok s =>
        rw [hformed s hs v hv] at hinfinite
        cases hinfinite

/-- Two equations of which the first has a value above all floats, `1e-9 x = 1e308` and `y = 1`. -/
def steep : AugmentedMatrix Float :=
  ⟨2, #v[#v[1e-9, 0, 1e308], #v[0, 1, 1]], Nat.two_pos, by decide +kernel⟩

/-- A value that is not finite is returned. -/
theorem infinite_value_returned : ∃ s, solve steep .standard = .ok s ∧ s.values = [1 / 0, 1] ∧
    ¬s.Finite := by
  have hvalues : (solve steep .standard).toOption.map Solution.values = some [1 / 0, 1] := by
    decide +kernel
  cases hs : solve steep .standard with
  | error e =>
    rw [hs] at hvalues
    cases hvalues
  | ok s =>
    have hlist : s.values = [1 / 0, 1] := by simpa [hs, Except.toOption] using hvalues
    refine ⟨s, rfl, hlist, fun hfinite => ?_⟩
    have hfirst := hfinite.values (1 / 0) (by rw [hlist]; exact List.mem_cons_self)
    revert hfirst
    decide +kernel

end EquationSolver.Linear
