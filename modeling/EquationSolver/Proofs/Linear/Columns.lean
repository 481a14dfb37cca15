import EquationSolver.Linear.Elimination
import Mathlib.Data.List.FinRange
import Mathlib.Logic.Equiv.Basic
import Mathlib.Order.Lattice

/-!
# The columns of an elimination

The rows are followed from column to column. An elimination goes on as long as the pivots have some
magnitude; it ends with the rows behind the last column, or at the first pivot that is too small. Each
value is resolved in those rows from the values behind it.
-/

namespace EquationSolver.Linear.Elimination

variable {α : Type} {n : Nat} [Scalar α]

def eliminated (rows : Rows α n) (i : Fin n) : Rows α n :=
  clearBelow (pivoted rows i) i

/-- The rows behind the elimination of a number of columns. -/
def worked (rows : Rows α n) : Nat → Rows α n
  | 0 => rows
  | c + 1 => if h : c < n then eliminated (worked rows c) ⟨c, h⟩ else worked rows c

theorem worked_succ (rows : Rows α n) (i : Fin n) :
    worked rows (i + 1) = eliminated (worked rows i) i := by
  simp [worked]

def pivot (rows : Rows α n) (i : Fin n) : α :=
  (pivoted (worked rows i) i).entry i i.castSucc

/-- Whether the pivot of a column is too small to divide by. -/
def lacking (rows : Rows α n) (i : Fin n) : Bool :=
  Scalar.less (Scalar.magnitude (pivot rows i)) pivotTolerance

theorem drop_finRange (i : Fin n) : (List.finRange n).drop i = i :: (List.finRange n).drop (i + 1) := by
  rw [List.drop_eq_getElem_cons (by simp)]
  simp

private theorem forward_cons (rows : Rows α n) (i : Fin n) (columns : List (Fin n)) :
    (forward (i :: columns) (worked rows i)).2 =
      if lacking rows i then .error (.singular i (pivot rows i))
      else (forward columns (worked rows (i + 1))).2 := by
  rw [forward, worked_succ]
  by_cases h : lacking rows i = true
  · have hsmall : Scalar.less (Scalar.magnitude ((pivoted (worked rows i) i).entry i i.castSucc))
        pivotTolerance = true := h
    rw [if_pos h, if_pos hsmall]
    rfl
  · have hlarge : ¬Scalar.less (Scalar.magnitude ((pivoted (worked rows i) i).entry i i.castSucc))
        pivotTolerance = true := h
    rw [if_neg h, if_neg hlarge]
    rfl

theorem forward_worked (rows : Rows α n) {c : Nat} (hc : c ≤ n) :
    (forward ((List.finRange n).drop c) (worked rows c)).2 = .ok (worked rows n) ∧
        (∀ i : Fin n, c ≤ i → lacking rows i = false) ∨
      ∃ i : Fin n, lacking rows i = true ∧ (∀ k : Fin n, c ≤ k → k < i → lacking rows k = false) ∧
        (forward ((List.finRange n).drop c) (worked rows c)).2 = .error (.singular i (pivot rows i)) := by
  -- By induction on the number of columns that are left.
  induction hd : n - c generalizing c with
  | zero =>
    obtain rfl : c = n := by omega
    have hnil : (List.finRange c).drop c = [] := by simp
    rw [hnil]
    exact .inl ⟨rfl, fun i hi => absurd i.isLt (by omega)⟩
  | succ d ih =>
    obtain ⟨i, rfl⟩ : ∃ i : Fin n, c = i := ⟨⟨c, by omega⟩, rfl⟩
    rw [drop_finRange, forward_cons]
    have hcase : ∀ k : Fin n, (i : Nat) ≤ k → k = i ∨ (i : Nat) + 1 ≤ k := by omega
    cases hlack : lacking rows i with
    | true => exact .inr ⟨i, hlack, fun k hk hlt => by omega, rfl⟩
    | false =>
      rw [if_neg (by decide)]
      rcases ih (c := i + 1) i.isLt (by omega) with ⟨hok, hall⟩ | ⟨j, hj, hbefore, herr⟩
      · left
        constructor
        · exact hok
        · intro k hk
          rcases hcase k hk with rfl | hk'
          · exact hlack
          · exact hall k hk'
      · right
        refine ⟨j, hj, ?_, herr⟩
        intro k hk hkj
        rcases hcase k hk with rfl | hk'
        · exact hlack
        · exact hbefore k hk' hkj

private theorem forward_append (rows : Rows α n) (columns later : List (Fin n)) :
    (forward (columns ++ later) rows).2 =
      (forward columns rows).2.bind fun left => (forward later left).2 := by
  induction columns generalizing rows with
  | nil => rfl
  | cons i columns ih =>
    simp only [List.cons_append, forward]
    split
    · rfl
    · exact ih _

theorem take_succ_finRange (i : Fin n) :
    (List.finRange n).take (i + 1) = (List.finRange n).take i ++ [i] := by
  rw [List.take_add_one]
  simp

/-- The elimination of the first columns succeeds if none of their pivots is too small, and leaves the
rows behind them. -/
theorem forward_take (rows : Rows α n) {c : Nat} (hc : c ≤ n) {left : Rows α n} :
    (forward ((List.finRange n).take c) rows).2 = .ok left ↔
      left = worked rows c ∧ ∀ k : Fin n, (k : Nat) < c → lacking rows k = false := by
  induction c generalizing left with
  | zero =>
    rw [List.take_zero, forward, worked, Except.ok.injEq]
    constructor
    · rintro rfl
      exact ⟨rfl, fun k hk => by omega⟩
    · rintro ⟨rfl, -⟩
      rfl
  | succ c ih =>
    obtain ⟨i, rfl⟩ : ∃ i : Fin n, c = i := ⟨⟨c, hc⟩, rfl⟩
    have hcase : ∀ k : Fin n, (k : Nat) < i + 1 → k = i ∨ (k : Nat) < i := by omega
    rw [take_succ_finRange, forward_append]
    cases hfirst : (forward ((List.finRange n).take i) rows).2 with
    | error error =>
      simp only [Except.bind, reduceCtorEq, false_iff, not_and]
      rintro rfl hall
      have hok := (ih (by omega)).mpr ⟨rfl, fun k hk => hall k (by omega)⟩
      rw [hfirst] at hok
      cases hok
    | ok before =>
      obtain ⟨rfl, hbefore⟩ := (ih (by omega)).mp hfirst
      simp only [Except.bind]
      rw [forward_cons]
      cases hlack : lacking rows i with
      | true =>
        simp only [if_true, reduceCtorEq, false_iff, not_and]
        intro _ hall
        rw [hall i (Nat.lt_succ_self _)] at hlack
        cases hlack
      | false =>
        simp only [Bool.false_eq_true, if_false, forward, Except.ok.injEq]
        constructor
        · rintro rfl
          refine ⟨rfl, fun k hk => ?_⟩
          rcases hcase k hk with rfl | hk'
          · exact hlack
          · exact hbefore k hk'
        · rintro ⟨rfl, -⟩
          rfl

theorem mem_forward_eliminate (rows : Rows α n) {c : Nat} (hc : c ≤ n) {target pivotRow : Nat} {f : α}
    (h : .eliminate target pivotRow f ∈ (forward ((List.finRange n).drop c) (worked rows c)).1) :
    ∃ i k : Fin n, i < k ∧ (∀ l : Fin n, c ≤ l → l ≤ i → lacking rows l = false) ∧
      f = factor (pivoted (worked rows i) i) i k := by
  induction hd : n - c generalizing c with
  | zero =>
    obtain rfl : c = n := by omega
    have hnil : (List.finRange c).drop c = [] := by simp
    rw [hnil] at h
    cases h
  | succ d ih =>
    obtain ⟨i, rfl⟩ : ∃ i : Fin n, c = i := ⟨⟨c, by omega⟩, rfl⟩
    have hswap : .eliminate target pivotRow f ∉ swapSteps (worked rows i) i := by
      rw [swapSteps]
      split <;> simp
    rw [drop_finRange, forward] at h
    cases hlack : lacking rows i with
    | true =>
      have hsmall : Scalar.less (Scalar.magnitude ((pivoted (worked rows i) i).entry i i.castSucc))
          pivotTolerance = true := hlack
      rw [if_pos hsmall] at h
      exact absurd h hswap
    | false =>
      have hlarge : ¬Scalar.less (Scalar.magnitude ((pivoted (worked rows i) i).entry i i.castSucc))
          pivotTolerance = true := ne_true_of_eq_false hlack
      rw [if_neg hlarge] at h
      rcases List.mem_append.mp h with hfirst | hlater
      · obtain ⟨k, hk, hstep⟩ := List.mem_map.mp ((List.mem_append.mp hfirst).resolve_left hswap)
        refine ⟨i, k, mem_after.mp hk, fun l hil hli => ?_, (Step.eliminate.inj hstep).2.2.symm⟩
        obtain rfl : l = i := by omega
        exact hlack
      · have hlater' : .eliminate target pivotRow f ∈
            (forward ((List.finRange n).drop (i + 1)) (worked rows (i + 1))).1 := by
          rw [worked_succ]
          exact hlater
        obtain ⟨i', k, hk, hall, hf⟩ := ih (c := i + 1) i.isLt hlater' (by omega)
        refine ⟨i', k, hk, fun l hil hli => ?_, hf⟩
        obtain rfl | hl : l = i ∨ (i : Nat) + 1 ≤ l := by omega
        · exact hlack
        · exact hall l hl hli

/-- A system of an admitted size is solved by substitution into the rows behind the last column, or
refused for its first pivot that is too small. -/
theorem solve_cases (m : AugmentedMatrix α) {limits : SizeLimits} (h : limits.admits m.size = true) :
    (∃ s, solve m limits = .ok s ∧ s.values = backSubstitute (worked m.rows m.size) ∧
        ∀ i, lacking m.rows i = false) ∨
      ∃ i : Fin m.size, solve m limits = .error (.singular i (pivot m.rows i)) ∧
        lacking m.rows i = true ∧ ∀ k < i, lacking m.rows k = false := by
  simp only [solve, eliminate, h, if_true]
  have hcases := forward_worked m.rows (Nat.zero_le m.size)
  rw [List.drop_zero, worked] at hcases
  rcases hcases with ⟨hok, hall⟩ | ⟨i, hi, hbefore, herr⟩
  · left
    split
    · next heq => simp [heq] at hok
    · next rows heq =>
      obtain rfl : rows = worked m.rows m.size := by simpa [heq] using hok
      exact ⟨_, rfl, rfl, fun i => hall i (Nat.zero_le _)⟩
  · right
    refine ⟨i, ?_, hi, fun k hk => hbefore k (Nat.zero_le _) hk⟩
    split
    · next error heq =>
      obtain rfl : error = .singular i (pivot m.rows i) := by simpa [heq] using herr
      rfl
    · next heq => simp [heq] at herr

theorem le_pivotRow (rows : Rows α n) (i : Fin n) : i ≤ pivotRow rows i := by
  unfold pivotRow
  apply List.foldlRecOn (motive := fun best => i ≤ best) (after i) _ (Fin.le_refl i)
  intro best hbest k hk
  have hik : i < k := mem_after.mp hk
  split
  · exact Fin.le_of_lt hik
  · exact hbest

theorem entry_pivoted_swap (rows : Rows α n) (i k : Fin n) (j : Fin (n + 1)) :
    (pivoted rows i).entry k j = rows.entry (Equiv.swap i (pivotRow rows i) k) j :=
  entry_pivoted rows i k j

theorem le_swap_pivotRow (rows : Rows α n) {i k : Fin n} (hk : i ≤ k) :
    i ≤ Equiv.swap i (pivotRow rows i) k := by
  rw [Equiv.swap_apply_def]
  split
  · exact le_pivotRow rows i
  · split
    · exact Fin.le_refl i
    · exact hk

theorem swap_pivotRow_of_lt (rows : Rows α n) {i k : Fin n} (hk : k < i) :
    Equiv.swap i (pivotRow rows i) k = k := by
  have hle := le_pivotRow rows i
  exact Equiv.swap_apply_of_ne_of_ne (by omega) (by omega)

omit [Scalar α] in
private theorem le_foldl_best {κ : Type} [LinearOrder κ] {less : Fin n → Fin n → Bool} {key : Fin n → κ}
    {places : List (Fin n)} {first : Fin n}
    (hless : ∀ j ∈ first :: places, ∀ k ∈ first :: places, less j k = true ↔ key j < key k) :
    ∀ k ∈ first :: places,
      key k ≤ key (places.foldl (fun best k => if less best k then k else best) first) := by
  induction places generalizing first with
  | nil =>
    intro k hk
    obtain rfl : k = first := by simpa using hk
    exact le_refl _
  | cons second places ih =>
    obtain ⟨kept, hkept⟩ : ∃ kept, (if less first second then second else first) = kept := ⟨_, rfl⟩
    have hcompare := hless first (by simp) second (by simp)
    obtain ⟨hsub, hfirst, hsecond⟩ :
        (∀ k ∈ kept :: places, k ∈ first :: second :: places) ∧
          key first ≤ key kept ∧ key second ≤ key kept := by
      by_cases hlt : less first second = true
      · obtain rfl : second = kept := by rw [← hkept, if_pos hlt]
        exact ⟨fun k hk => List.mem_cons_of_mem _ hk, le_of_lt (hcompare.mp hlt), le_refl _⟩
      · obtain rfl : first = kept := by rw [← hkept, if_neg hlt]
        refine ⟨?_, le_refl _, not_lt.mp fun hkey => hlt (hcompare.mpr hkey)⟩
        intro k hk
        rcases List.mem_cons.mp hk with rfl | hk
        · exact List.mem_cons_self
        · exact List.mem_cons_of_mem _ (List.mem_cons_of_mem _ hk)
    have hbest := @ih kept fun j hj k hk => hless j (hsub j hj) k (hsub k hk)
    have hkept' := hbest kept List.mem_cons_self
    rw [List.foldl_cons, hkept]
    intro k hk
    rcases List.mem_cons.mp hk with rfl | hk
    · exact le_trans hfirst hkept'
    · rcases List.mem_cons.mp hk with rfl | hk
      · exact le_trans hsecond hkept'
      · exact hbest k (List.mem_cons_of_mem _ hk)

/-- The pivot's row has the greatest key from its place on, if keys compare as magnitudes do. -/
theorem key_le_pivotRow {κ : Type} [LinearOrder κ] {rows : Rows α n} {i : Fin n} (key : Fin n → κ)
    (hkey : ∀ j k, i ≤ j → i ≤ k → (Scalar.less (Scalar.magnitude (rows.entry j i.castSucc))
      (Scalar.magnitude (rows.entry k i.castSucc)) = true ↔ key j < key k))
    {k : Fin n} (hk : i ≤ k) : key k ≤ key (pivotRow rows i) := by
  have hplace : ∀ k ∈ i :: after i, i ≤ k := by
    intro k hk
    rcases List.mem_cons.mp hk with rfl | hk
    · exact Fin.le_refl k
    · exact Fin.le_of_lt (mem_after.mp hk)
  apply le_foldl_best fun j hj k hk => hkey j k (hplace j hj) (hplace k hk)
  by_cases hi : k = i
  · rw [hi]
    exact List.mem_cons_self
  · exact List.mem_cons_of_mem _ (mem_after.mpr (by omega))

theorem entry_worked_of_lt (rows : Rows α n) {i : Fin n} {c : Nat} (hi : (i : Nat) < c) (hc : c ≤ n)
    (j : Fin (n + 1)) : (worked rows c).entry i j = (pivoted (worked rows i) i).entry i j := by
  induction c with
  | zero => omega
  | succ c ih =>
    obtain ⟨l, rfl⟩ : ∃ l : Fin n, c = l := ⟨⟨c, hc⟩, rfl⟩
    rw [worked_succ, eliminated, entry_clearBelow]
    rcases Nat.lt_succ_iff_lt_or_eq.mp hi with hlt | heq
    · rw [if_neg (by omega), entry_pivoted_swap, swap_pivotRow_of_lt _ hlt]
      exact ih hlt (by omega)
    · obtain rfl : i = l := Fin.ext heq
      rw [if_neg fun hboth => Fin.lt_irrefl i hboth.1]

theorem entry_worked_succ (rows : Rows α n) {i k : Fin n} (hk : i < k) {j : Fin (n + 1)}
    (hj : i.castSucc ≤ j) : (worked rows (i + 1)).entry k j = (pivoted (worked rows i) i).entry k j -
      factor (pivoted (worked rows i) i) i k * (pivoted (worked rows i) i).entry i j := by
  rw [worked_succ, eliminated, entry_clearBelow, if_pos ⟨hk, hj⟩]

theorem pivot_eq (rows : Rows α n) (i : Fin n) :
    pivot rows i = (worked rows i).entry (pivotRow (worked rows i) i) i.castSucc := by
  rw [pivot, entry_pivoted, if_pos rfl]

theorem nodup_after (i : Fin n) : (after i).Nodup :=
  (List.nodup_finRange n).filter _

private theorem after_eq_drop (i : Fin n) : after i = (List.finRange n).drop (i + 1) := by
  have hbefore : ((List.finRange n).take (i + 1)).filter (i < ·) = [] := by
    apply List.filter_eq_nil_iff.mpr
    intro k hk
    obtain ⟨j, hj, rfl⟩ := List.mem_take_iff_getElem.mp hk
    simp only [List.getElem_finRange, decide_eq_true_eq, Fin.lt_def, Fin.val_cast]
    omega
  have hbehind : ((List.finRange n).drop (i + 1)).filter (i < ·) = (List.finRange n).drop (i + 1) := by
    apply List.filter_eq_self.mpr
    intro k hk
    obtain ⟨j, hj, rfl⟩ := List.mem_drop_iff_getElem.mp hk
    simp only [List.getElem_finRange, decide_eq_true_eq, Fin.lt_def, Fin.val_cast]
    omega
  calc
    after i = ((List.finRange n).take (i + 1) ++ (List.finRange n).drop (i + 1)).filter (i < ·) := by
      rw [List.take_append_drop, after]
    _ = (List.finRange n).drop (i + 1) := by rw [List.filter_append, hbefore, hbehind, List.nil_append]

/-- Back substitution finds the values that agree with those behind them. -/
theorem backSubstitute_eq_map_iff (rows : Rows α n) (x : Fin n → α) :
    backSubstitute rows = (List.finRange n).map x ↔ ∀ i, x i = resolve rows i ((after i).map x) := by
  have hsuffix : ∀ c ≤ n, ((List.finRange n).drop c).foldr (fun i later => resolve rows i later :: later) [] =
      ((List.finRange n).drop c).map x ↔ ∀ i : Fin n, c ≤ i → x i = resolve rows i ((after i).map x) := by
    intro c hc
    induction hd : n - c generalizing c with
    | zero =>
      obtain rfl : c = n := by omega
      have hnil : (List.finRange c).drop c = [] := by simp
      rw [hnil]
      exact iff_of_true rfl fun i hi => absurd i.isLt (by omega)
    | succ d ih =>
      obtain ⟨i, rfl⟩ : ∃ i : Fin n, c = i := ⟨⟨c, by omega⟩, rfl⟩
      have ih' := ih (i + 1) i.isLt (by omega)
      rw [← after_eq_drop] at ih'
      rw [drop_finRange, ← after_eq_drop, List.foldr_cons, List.map_cons, List.cons.injEq]
      constructor
      · rintro ⟨hvalue, hlater⟩ k hk
        obtain rfl | hk' : k = i ∨ (i : Nat) + 1 ≤ k := by omega
        · rw [← hvalue, hlater]
        · exact ih'.mp hlater k hk'
      · intro h
        have hlater := ih'.mpr fun k hk => h k (by omega)
        exact ⟨by rw [hlater, ← h i (Nat.le_refl _)], hlater⟩
  simpa [backSubstitute] using hsuffix 0 (Nat.zero_le n)

/-- The value that back substitution finds for an unknown. -/
def unknown (rows : Rows α n) (i : Fin n) : α :=
  (backSubstitute rows).get (i.cast (length_backSubstitute rows).symm)

theorem backSubstitute_eq_ofFn (rows : Rows α n) : backSubstitute rows = List.ofFn (unknown rows) := by
  apply List.ext_getElem
  · simp [length_backSubstitute]
  · intro j hj hj'
    simp [unknown]

theorem unknown_eq_resolve (rows : Rows α n) (i : Fin n) :
    unknown rows i = resolve rows i ((after i).map (unknown rows)) := by
  apply (backSubstitute_eq_map_iff rows _).mp
  rw [backSubstitute_eq_ofFn, List.ofFn_eq_map]

end EquationSolver.Linear.Elimination
