import EquationSolver.Proofs.Floats.Value
import EquationSolver.Proofs.Linear.Columns
import Mathlib.Logic.Equiv.Basic
import Mathlib.Order.Fin.Basic

/-!
# The order of the equations

Where one remaining row has the greatest magnitude in each column of a pivot, it is found wherever it
stands. Systems that differ in the order of their equations then keep the same rows column by column,
those above the pivots in the same places, and end alike.
-/

namespace EquationSolver.Linear

open Equiv (Perm)

variable {α : Type} {n : Nat} [Scalar α]

def AugmentedMatrix.reordered (m : AugmentedMatrix α) (order : Perm (Fin m.size)) :
    AugmentedMatrix α where
  size := m.size
  rows := Vector.ofFn fun k => m.rows.get (order k)
  size_pos := m.size_pos
  finite := fun k j => by
    rw [Rows.entry_ofFn]
    exact m.finite (order k) j

namespace Elimination

/-- Whether one row at or below a place has a magnitude in the place's column that is greater than
those of all others. -/
def Untied (rows : Rows α n) (i : Fin n) : Prop :=
  ∃ greatest, i ≤ greatest ∧ ∀ k, i ≤ k → k ≠ greatest →
    Scalar.less (Scalar.magnitude (rows.entry k i.castSucc))
      (Scalar.magnitude (rows.entry greatest i.castSucc)) = true

instance (rows : Rows α n) (i : Fin n) : Decidable (Untied rows i) :=
  inferInstanceAs (Decidable (∃ greatest, i ≤ greatest ∧ ∀ k, i ≤ k → k ≠ greatest → _ = true))

/-- A value that is greater than all others is found wherever it stands. -/
theorem foldl_best_eq {β : Type} {less : β → β → Bool}
    (hasymm : ∀ x y, less x y = true → less y x = false) {greatest first : β} {rest : List β}
    (hmem : greatest ∈ first :: rest)
    (h : ∀ x ∈ first :: rest, x ≠ greatest → less x greatest = true) :
    rest.foldl (fun best x => if less best x then x else best) first = greatest := by
  induction rest generalizing first with
  | nil => exact (List.mem_singleton.mp hmem).symm
  | cons x rest ih =>
    have hfirst := h first List.mem_cons_self
    have hx := h x (List.mem_cons_of_mem _ List.mem_cons_self)
    obtain ⟨best, hbest⟩ : ∃ best, best = if less first x then x else first := ⟨_, rfl⟩
    have hchoice : best = first ∨ best = x := by
      rw [hbest]
      split
      · exact .inr rfl
      · exact .inl rfl
    -- The greatest value is kept once it is found, and taken where it is met.
    have hkeep : greatest = first ∨ greatest = x → best = greatest := by
      rw [hbest]
      rintro (rfl | rfl)
      · split
        · next hless =>
          by_contra hne
          rw [hasymm _ _ (hx hne)] at hless
          cases hless
        · rfl
      · split
        · rfl
        · next hless =>
          by_contra hne
          exact hless (hfirst hne)
    rw [List.foldl_cons, ← hbest]
    apply ih
    · rcases List.mem_cons.mp hmem with heq | hmem
      · exact List.mem_cons.mpr (.inl (hkeep (.inl heq)).symm)
      · rcases List.mem_cons.mp hmem with heq | hmem
        · exact List.mem_cons.mpr (.inl (hkeep (.inr heq)).symm)
        · exact List.mem_cons_of_mem _ hmem
    · intro y hy
      rcases List.mem_cons.mp hy with rfl | hy
      · rcases hchoice with rfl | rfl
        · exact hfirst
        · exact hx
      · exact h y (List.mem_cons_of_mem _ (List.mem_cons_of_mem _ hy))

section

variable (hasymm : ∀ x y : α, Scalar.less x y = true → Scalar.less y x = false)
include hasymm

private theorem pivotRow_eq {rows : Rows α n} {i greatest : Fin n} (hle : i ≤ greatest)
    (h : ∀ k, i ≤ k → k ≠ greatest →
      Scalar.less (Scalar.magnitude (rows.entry k i.castSucc))
        (Scalar.magnitude (rows.entry greatest i.castSucc)) = true) :
    pivotRow rows i = greatest := by
  have hplaces : ∀ k, k ∈ i :: after i ↔ i ≤ k := by
    intro k
    rw [List.mem_cons, mem_after, eq_comm]
    exact le_iff_eq_or_lt.symm
  apply foldl_best_eq (fun k l => hasymm _ _) ((hplaces _).mpr hle)
  intro k hk hne
  exact h k ((hplaces k).mp hk) hne

end

/-- Whether rows are other ones in another order that leaves the first of them in place. -/
structure Reordered (rows rows' : Rows α n) (c : Nat) (order : Perm (Fin n)) : Prop where
  entry : ∀ k j, rows'.entry k j = rows.entry (order k) j
  fixed : ∀ k : Fin n, (k : Nat) < c → order k = k

variable {rows rows' : Rows α n} {order : Perm (Fin n)} {c : Nat} {i : Fin n}

omit [Scalar α] in
private theorem Reordered.le_iff (h : Reordered rows rows' c order) (k : Fin n) : c ≤ order k ↔ c ≤ k := by
  constructor
  · intro hle
    by_contra hlt
    rw [h.fixed k (by omega)] at hle
    exact hlt hle
  · intro hle
    by_contra hlt
    have hfixed := order.injective (h.fixed (order k) (by omega))
    rw [hfixed] at hlt
    exact hlt hle

omit [Scalar α] in
private theorem Reordered.eq (h : Reordered rows rows' n order) : rows' = rows := by
  apply Rows.ext
  intro k j
  rw [h.entry, h.fixed k k.isLt]

section

variable (hasymm : ∀ x y : α, Scalar.less x y = true → Scalar.less y x = false)
include hasymm

private theorem Reordered.pivoted (h : Reordered rows rows' i order) (huntied : Untied rows i) :
    ∃ order', Reordered (Elimination.pivoted rows i) (Elimination.pivoted rows' i) (i + 1) order' := by
  obtain ⟨greatest, hle, hgreatest⟩ := huntied
  have hplace : order (order.symm greatest) = greatest := order.apply_symm_apply greatest
  have hle' : i ≤ order.symm greatest := by
    have := (h.le_iff (order.symm greatest)).mp (by rw [hplace]; exact hle)
    exact this
  have hpivot : pivotRow rows i = greatest := pivotRow_eq hasymm hle hgreatest
  have hpivot' : pivotRow rows' i = order.symm greatest := by
    apply pivotRow_eq hasymm hle'
    intro k hk hne
    rw [h.entry, h.entry, hplace]
    apply hgreatest (order k) ((h.le_iff k).mpr hk)
    intro heq
    exact hne (order.injective (heq.trans hplace.symm))
  refine ⟨(Equiv.swap i (order.symm greatest)).trans (order.trans (Equiv.swap i greatest)), ?_, ?_⟩
  · intro k j
    rw [entry_pivoted_swap, entry_pivoted_swap, h.entry, hpivot, hpivot']
    simp
  · intro k hk
    rcases Nat.lt_succ_iff_lt_or_eq.mp hk with hlt | heq
    · have hne : k ≠ i := by omega
      have hne' : k ≠ order.symm greatest := by omega
      have hne'' : k ≠ greatest := by omega
      simp [Equiv.swap_apply_of_ne_of_ne hne hne', h.fixed k hlt,
        Equiv.swap_apply_of_ne_of_ne hne hne'']
    · obtain rfl : k = i := Fin.ext heq
      simp

end

private theorem Reordered.clearBelow (h : Reordered rows rows' (i + 1) order) :
    Reordered (clearBelow rows i) (clearBelow rows' i) (i + 1) order := by
  have hpivot : order i = i := h.fixed i (Nat.lt_succ_self _)
  constructor
  · intro k j
    have hbelow : i < order k ↔ i < k := h.le_iff k
    have hfactor : factor rows' i k = factor rows i (order k) := by
      rw [factor, factor, h.entry, h.entry, hpivot]
    rw [entry_clearBelow, entry_clearBelow, h.entry, h.entry, hpivot, hfactor]
    simp only [hbelow]
  · exact h.fixed

section

variable (hasymm : ∀ x y : α, Scalar.less x y = true → Scalar.less y x = false)
  (h : Reordered rows rows' 0 order)
include hasymm h

private theorem exists_reordered (hc : c ≤ n)
    (huntied : ∀ i : Fin n, (i : Nat) < c → Untied (worked rows i) i) :
    ∃ order', Reordered (worked rows c) (worked rows' c) c order' := by
  induction c with
  | zero => exact ⟨order, h⟩
  | succ c ih =>
    obtain ⟨i, rfl⟩ : ∃ i : Fin n, c = i := ⟨⟨c, hc⟩, rfl⟩
    obtain ⟨order', hworked⟩ := ih (by omega) fun k hk => huntied k (by omega)
    obtain ⟨order'', hpivoted⟩ := hworked.pivoted hasymm (huntied i (Nat.lt_succ_self _))
    rw [worked_succ, worked_succ]
    exact ⟨order'', hpivoted.clearBelow⟩

private theorem pivot_eq_of_reordered (huntied : ∀ k ≤ i, Untied (worked rows k) k) :
    pivot rows' i = pivot rows i := by
  obtain ⟨order', hworked⟩ := exists_reordered hasymm h i.isLt.le fun k hk => huntied k (le_of_lt hk)
  obtain ⟨order'', hpivoted⟩ := hworked.pivoted hasymm (huntied i le_rfl)
  rw [pivot, hpivoted.entry, hpivoted.fixed i (Nat.lt_succ_self _)]
  rfl

end

private theorem first_eq {p q : Fin n → Bool} (hagree : ∀ i, (∀ k < i, p k = false) → q i = p i)
    {i i' : Fin n} (hp : p i = true) (hbefore : ∀ k < i, p k = false) (hq : q i' = true)
    (hbefore' : ∀ k < i', q k = false) : i' = i := by
  rcases lt_trichotomy i' i with hlt | heq | hgt
  · rw [hagree i' fun k hk => hbefore k (hk.trans hlt), hbefore i' hlt] at hq
    cases hq
  · exact heq
  · have hsame := hagree i hbefore
    rw [hbefore' i hgt, hp] at hsame
    cases hsame

end Elimination

open Elimination

/-- Where no pivot is tied, the order of the equations does not matter: the values are the same, or the
same pivot is refused in the same column. Nothing is asked of arithmetic, and of the comparison only
that no two values are less than each other. -/
theorem solve_reordered (hasymm : ∀ x y : α, Scalar.less x y = true → Scalar.less y x = false)
    (m : AugmentedMatrix α) (limits : SizeLimits) (order : Perm (Fin m.size))
    (huntied : ∀ i, (∀ k < i, lacking m.rows k = false) → Untied (worked m.rows i) i) :
    (solve (m.reordered order) limits).map Solution.values = (solve m limits).map Solution.values := by
  have hstart : Reordered m.rows (m.reordered order).rows 0 order :=
    ⟨fun k j => Rows.entry_ofFn _ k j, fun k hk => absurd hk (Nat.not_lt_zero _)⟩
  have hpivot : ∀ i, (∀ k < i, lacking m.rows k = false) →
      pivot (m.reordered order).rows i = pivot m.rows i := by
    intro i hreached
    apply pivot_eq_of_reordered hasymm hstart
    intro k hk
    exact huntied k fun l hl => hreached l (lt_of_lt_of_le hl hk)
  have hlacking : ∀ i, (∀ k < i, lacking m.rows k = false) →
      lacking (m.reordered order).rows i = lacking m.rows i := by
    intro i hreached
    exact congrArg (fun pivot => Scalar.less (Scalar.magnitude pivot) pivotTolerance)
      (hpivot i hreached)
  cases hadmits : limits.admits m.size with
  | false =>
    have hadmits' : limits.admits (m.reordered order).size = false := hadmits
    simp only [solve, eliminate, hadmits, hadmits']
    rfl
  | true =>
    have hadmits' : limits.admits (m.reordered order).size = true := hadmits
    rcases solve_cases m hadmits with ⟨s, hs, hvalues, hall⟩ | ⟨i, hi, hlack, hbefore⟩
    · obtain ⟨order', hworked⟩ := exists_reordered hasymm hstart (le_refl m.size)
        fun i _ => huntied i fun k _ => hall k
      rcases solve_cases (m.reordered order) hadmits' with ⟨s', hs', hvalues', -⟩ | ⟨i, -, hlack, -⟩
      · rw [hs, hs', Except.map, Except.map, hvalues, hvalues']
        exact congrArg (fun rows => Except.ok (backSubstitute rows)) hworked.eq
      · rw [hlacking i fun k _ => hall k, hall i] at hlack
        cases hlack
    · rcases solve_cases (m.reordered order) hadmits' with ⟨s', -, -, hall⟩ | ⟨i', hi', hlack', hbefore'⟩
      · have hsame := hlacking i hbefore
        rw [hall i, hlack] at hsame
        cases hsame
      · obtain rfl : i' = i := first_eq hlacking hlack hbefore hlack' hbefore'
        rw [hi, hi', hpivot i' hbefore]

def triple : AugmentedMatrix Float :=
  ⟨3, #v[#v[2.0, 1.0, -1.0, 8.0], #v[-3.0, -1.0, 2.0, -11.0], #v[-2.0, 1.0, 2.0, -3.0]],
    Nat.succ_pos 2, by decide +kernel⟩

theorem solve_reordered_triple : (solve triple .standard).isOk = true ∧
    (∀ i : Fin triple.size, Untied (worked triple.rows i) i) ∧
    (solve (triple.reordered (Equiv.swap (0 : Fin 3) (2 : Fin 3))) .standard).map Solution.values =
      (solve triple .standard).map Solution.values := by
  have huntied : ∀ i : Fin triple.size, Untied (worked triple.rows i) i := by decide +kernel
  refine ⟨by decide +kernel, huntied, ?_⟩
  apply solve_reordered
  · intro x y h
    exact decide_eq_false (Floats.not_lt_of_lt (of_decide_eq_true h))
  · intro i _
    exact huntied i

end EquationSolver.Linear
