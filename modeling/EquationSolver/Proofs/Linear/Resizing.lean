import EquationSolver.Linear.Matrix
import Mathlib.Data.List.Basic
import Mathlib.Order.Basic

/-!
# Rows and sizes

Which lists of rows are augmented matrices, and what is wrong with the others. An augmented matrix is the
list of its rows. Its size can change: a coefficient keeps its place, a constant moves along with the last
column, and the way from one size to another may lead over any size that does not cut off what both have.
-/

namespace EquationSolver.Linear

variable {α : Type}

private theorem zipIdx_eq_append_cons {β : Type} {l : List β} {front behind : List (β × Nat)} {x : β}
    {i : Nat} (h : l.zipIdx = front ++ (x, i) :: behind) :
    ∃ before after, l = before ++ x :: after ∧ front = before.zipIdx ∧ i = before.length := by
  obtain ⟨before, rest, rfl, hfront, hrest⟩ := List.zipIdx_eq_append_iff.mp h
  obtain ⟨y, after, rfl, hy, -⟩ := List.zipIdx_eq_cons_iff.mp hrest.symm
  obtain ⟨rfl, rfl⟩ := Prod.mk.inj hy
  exact ⟨before, after, rfl, hfront, Nat.zero_add _⟩

variable [Scalar α]

/-- What a row of a matrix of `n` rows must be. -/
structure Proper (n : Nat) (values : List α) : Prop where
  length : values.length = n + 1
  finite : ∀ v ∈ values, Scalar.isFinite v = true

/-- The fault of the row at a place in a matrix of `n` rows: its length, or if that is right an entry
that is not finite behind entries that are. -/
inductive RowFault (n row : Nat) : List α → MatrixError α → Prop
  | ragged {values : List α} (hlength : values.length ≠ n + 1) :
      RowFault n row values (.ragged row values.length (n + 1))
  | nonFinite {left right : List α} {v : α} (hlength : (left ++ v :: right).length = n + 1)
      (hleft : ∀ w ∈ left, Scalar.isFinite w = true) (hv : Scalar.isFinite v = false) :
      RowFault n row (left ++ v :: right) (.nonFinite row left.length v)

/-- The fault of a list of rows: that it is empty, or the fault of a row behind rows that are proper. -/
inductive FirstFault (rows : List (List α)) : MatrixError α → Prop
  | empty (hrows : rows = []) : FirstFault rows .empty
  | row {front behind : List (List α)} {values : List α} {e : MatrixError α}
      (hrows : rows = front ++ values :: behind) (hfront : ∀ row ∈ front, Proper rows.length row)
      (hvalues : RowFault rows.length front.length values e) : FirstFault rows e

private theorem firstNonFinite?_eq_some_iff {values : List α} {v : α} {col : Nat} :
    Scalar.firstNonFinite? values = some (v, col) ↔ ∃ left right, values = left ++ v :: right ∧
      col = left.length ∧ (∀ w ∈ left, Scalar.isFinite w = true) ∧ Scalar.isFinite v = false := by
  rw [Scalar.firstNonFinite?, List.find?_eq_some_iff_append]
  constructor
  · rintro ⟨hv, front, behind, hsplit, hfront⟩
    obtain ⟨left, right, rfl, rfl, rfl⟩ := zipIdx_eq_append_cons hsplit
    refine ⟨left, right, rfl, rfl, ?_, by simpa using hv⟩
    intro w hw
    obtain ⟨i, hi, rfl⟩ := List.mem_iff_getElem.mp hw
    simpa using hfront _ (List.mk_mem_zipIdx_iff_getElem?.mpr (List.getElem?_eq_getElem hi))
  · rintro ⟨left, right, rfl, rfl, hleft, hv⟩
    refine ⟨by simp [hv], left.zipIdx, right.zipIdx (left.length + 1), ?_, ?_⟩
    · simp [List.zipIdx_append]
    · intro entry hentry
      simp [hleft _ (List.fst_mem_of_mem_zipIdx hentry)]

private theorem rowFault?_eq_none_iff_proper {n row : Nat} {values : List α} :
    rowFault? n row values = none ↔ Proper n values :=
  rowFault?_eq_none_iff.trans ⟨fun h => ⟨h.1, h.2⟩, fun h => ⟨h.length, h.finite⟩⟩

private theorem rowFault?_eq_some_iff {n row : Nat} {values : List α} {e : MatrixError α} :
    rowFault? n row values = some e ↔ RowFault n row values e := by
  unfold rowFault?
  split
  · next hlength =>
    constructor
    · rintro ⟨⟩
      exact .ragged hlength
    · rintro (_ | ⟨hright, -, -⟩)
      · rfl
      · exact absurd hright hlength
  · next hlength =>
    rw [Option.map_eq_some_iff]
    constructor
    · rintro ⟨⟨v, col⟩, hfirst, rfl⟩
      obtain ⟨left, right, rfl, rfl, hleft, hv⟩ := firstNonFinite?_eq_some_iff.mp hfirst
      exact .nonFinite (not_not.mp hlength) hleft hv
    · rintro (hragged | ⟨-, hleft, hv⟩)
      · exact absurd hragged hlength
      · exact ⟨(_, _), firstNonFinite?_eq_some_iff.mpr ⟨_, _, rfl, rfl, hleft, hv⟩, rfl⟩

private theorem fault?_eq_some_iff {rows : List (List α)} {e : MatrixError α} :
    fault? rows = some e ↔ FirstFault rows e := by
  unfold fault?
  split
  · next hempty =>
    rw [List.isEmpty_iff] at hempty
    constructor
    · rintro ⟨⟩
      exact .empty hempty
    · rintro (_ | ⟨hrows, -, -⟩)
      · rfl
      · exact absurd (hrows.symm.trans hempty) (by simp)
  · next hempty =>
    rw [List.findSome?_eq_some_iff]
    constructor
    · rintro ⟨front, ⟨values, row⟩, behind, hsplit, hvalues, hfront⟩
      obtain ⟨before, after, hrows, rfl, rfl⟩ := zipIdx_eq_append_cons hsplit
      refine .row hrows ?_ (rowFault?_eq_some_iff.mp hvalues)
      intro earlier hearlier
      obtain ⟨i, hi, rfl⟩ := List.mem_iff_getElem.mp hearlier
      exact rowFault?_eq_none_iff_proper.mp
        (hfront _ (List.mk_mem_zipIdx_iff_getElem?.mpr (List.getElem?_eq_getElem hi)))
    · rintro (hrows | @⟨front, behind, values, _, hrows, hfront, hvalues⟩)
      · exact absurd (List.isEmpty_iff.mpr hrows) hempty
      · refine ⟨front.zipIdx, (values, front.length), behind.zipIdx (front.length + 1), ?_,
          rowFault?_eq_some_iff.mpr hvalues, ?_⟩
        · rw [hrows, List.zipIdx_append, List.zipIdx_cons, Nat.zero_add]
        · intro entry hentry
          exact rowFault?_eq_none_iff_proper.mpr (hfront _ (List.fst_mem_of_mem_zipIdx hentry))

namespace AugmentedMatrix

private theorem ofRows_eq_error_iff {rows : List (List α)} {e : MatrixError α} :
    ofRows rows = .error e ↔ FirstFault rows e := by
  rw [← fault?_eq_some_iff]
  unfold ofRows
  split
  · next error hfault => rw [hfault, Except.error.injEq, Option.some.injEq]
  · next hfault => simp [hfault]

private theorem exists_ofRows_eq_ok_iff {rows : List (List α)} :
    (∃ m, ofRows rows = .ok m) ↔ 1 ≤ rows.length ∧ ∀ row ∈ rows, Proper rows.length row := by
  have hproper : fault? rows = none ↔ 1 ≤ rows.length ∧ ∀ row ∈ rows, Proper rows.length row :=
    fault?_eq_none_iff.trans (and_congr_right fun _ => forall₂_congr fun _ _ =>
      ⟨fun h => ⟨h.1, h.2⟩, fun h => ⟨h.length, h.finite⟩⟩)
  rw [← hproper]
  unfold ofRows
  split
  · next hfault => simp [hfault]
  · next hfault => simp [hfault]

private theorem toLists_of_ofRows {rows : List (List α)} {m : AugmentedMatrix α} (h : ofRows rows = .ok m) :
    m.toLists = rows := by
  unfold ofRows at h
  split at h
  · cases h
  · obtain rfl := Except.ok.inj h
    apply List.ext_getElem
    · simp [toLists]
    · intro i hi hi'
      simp [toLists]

private theorem toLists_injective : Function.Injective (toLists (α := α)) := by
  rintro ⟨n, rows, hn, hfinite⟩ ⟨n', rows', hn', hfinite'⟩ h
  have hlength : n = n' := by simpa [toLists] using congrArg List.length h
  subst hlength
  have hrows : rows.toList = rows'.toList := List.map_injective_iff.mpr (fun _ _ => Vector.toList_inj.mp) h
  rw [Vector.toList_inj] at hrows
  subst hrows
  rfl

private theorem ofRows_toLists (m : AugmentedMatrix α) : ofRows m.toLists = .ok m := by
  have hlength : m.toLists.length = m.size := by simp [toLists]
  have hproper : ∀ row ∈ m.toLists, Proper m.toLists.length row := by
    intro row hrow
    obtain ⟨values, hvalues, rfl⟩ := List.mem_map.mp hrow
    obtain ⟨i, hi, rfl⟩ := List.mem_iff_getElem.mp hvalues
    rw [Vector.length_toList] at hi
    refine ⟨by simp [hlength], ?_⟩
    intro v hv
    obtain ⟨j, hj, rfl⟩ := List.mem_iff_getElem.mp hv
    rw [Vector.length_toList] at hj
    exact m.finite ⟨i, hi⟩ ⟨j, hj⟩
  obtain ⟨m', hm'⟩ := exists_ofRows_eq_ok_iff.mpr ⟨hlength ▸ m.size_pos, hproper⟩
  rw [hm', toLists_injective (toLists_of_ofRows hm')]

private theorem entry?_eq_some (m : AugmentedMatrix α) {i j : Nat} (hi : i < m.size) (hj : j < m.size + 1) :
    m.entry? i j = some (m.rows.entry ⟨i, hi⟩ ⟨j, hj⟩) := by
  unfold entry?
  rw [Vector.getElem?_eq_getElem hi, Option.bind_some, Vector.getElem?_eq_getElem hj]
  rfl

private theorem entry?_eq_none (m : AugmentedMatrix α) {i j : Nat} (hi : m.size ≤ i) :
    m.entry? i j = none := by
  unfold entry?
  rw [Vector.getElem?_eq_none hi, Option.bind_none]

private theorem resizedEntry_of_lt (m : AugmentedMatrix α) {k i j : Nat} (hj : j < k) :
    m.resizedEntry k i j = (if j < m.size then m.entry? i j else none).getD Scalar.zero := by
  rw [resizedEntry, kept?, if_neg (Nat.ne_of_lt hj)]

private theorem resizedEntry_last (m : AugmentedMatrix α) (k i : Nat) :
    m.resizedEntry k i k = (m.entry? i m.size).getD Scalar.zero := by
  rw [resizedEntry, kept?, if_pos rfl]

private theorem resized_eq_ok (m : AugmentedMatrix α) {k : Nat} (hk : 1 ≤ k) :
    ∃ m', m.resized k = .ok m' ∧ m'.size = k ∧
      ∀ i j, i < k → j < k + 1 → m'.entry? i j = some (m.resizedEntry k i j) := by
  refine ⟨_, dif_pos hk, rfl, ?_⟩
  intro i j hi hj
  rw [entry?_eq_some _ hi hj, Rows.entry_ofFn_ofFn]

/-- Whether a matrix of a size has what another one has in the rows and columns of both, and zeros
elsewhere. The constants of both are in the last column. -/
structure Keeps (m : AugmentedMatrix α) (k : Nat) (m' : AugmentedMatrix α) : Prop where
  size : m'.size = k
  coefficient : ∀ i j, i < k → j < k → m'.entry? i j =
    if i < min m.size k ∧ j < min m.size k then m.entry? i j else some Scalar.zero
  constant : ∀ i, i < k → m'.entry? i k =
    if i < min m.size k then m.entry? i m.size else some Scalar.zero

private theorem exists_resized (m : AugmentedMatrix α) {k : Nat} (hk : 1 ≤ k) :
    ∃ m', m.resized k = .ok m' ∧ Keeps m k m' := by
  obtain ⟨m', hm', hsize, hentry⟩ := m.resized_eq_ok hk
  refine ⟨m', hm', hsize, ?_, ?_⟩
  · intro i j hi hj
    rw [hentry i j hi (by omega), resizedEntry_of_lt m hj]
    by_cases hrow : i < m.size <;> by_cases hcolumn : j < m.size
    · rw [if_pos hcolumn, if_pos (by omega), entry?_eq_some m hrow (by omega), Option.getD_some]
    · rw [if_neg hcolumn, if_neg (by omega), Option.getD_none]
    · rw [if_pos hcolumn, if_neg (by omega), entry?_eq_none m (by omega), Option.getD_none]
    · rw [if_neg hcolumn, if_neg (by omega), Option.getD_none]
  · intro i hi
    rw [hentry i k hi (by omega), resizedEntry_last]
    by_cases hrow : i < m.size
    · rw [if_pos (by omega), entry?_eq_some m hrow (by omega), Option.getD_some]
    · rw [if_neg (by omega), entry?_eq_none m (by omega), Option.getD_none]

private theorem resized_congr {m m' : AugmentedMatrix α} {k : Nat}
    (h : ∀ i j, i < k → j < k + 1 → m.resizedEntry k i j = m'.resizedEntry k i j) :
    m.resized k = m'.resized k := by
  have hentry : (fun (i : Fin k) (j : Fin (k + 1)) => m.resizedEntry k i j) =
      fun (i : Fin k) (j : Fin (k + 1)) => m'.resizedEntry k i j := by
    funext i j
    exact h i j i.isLt j.isLt
  simp only [resized, hentry]

private theorem resized_resized (m : AugmentedMatrix α) {a b : Nat} (ha : 1 ≤ a) (hle : min m.size b ≤ a) :
    (m.resized a).bind (·.resized b) = m.resized b := by
  obtain ⟨m', hm', hsize, hentry⟩ := m.resized_eq_ok ha
  rw [hm']
  refine resized_congr fun i j hi hj => ?_
  have hrow : a ≤ i → ∀ l, m.entry? i l = none := fun h l => entry?_eq_none m (by omega)
  have hrow' : a ≤ i → ∀ l, m'.entry? i l = none := fun h l => entry?_eq_none m' (by omega)
  rcases Nat.lt_succ_iff_lt_or_eq.mp hj with hj | rfl
  · rw [resizedEntry_of_lt m hj, resizedEntry_of_lt m' hj, hsize]
    by_cases hi' : i < a
    · by_cases hj' : j < a
      · rw [if_pos hj', hentry i j hi' (by omega), Option.getD_some, resizedEntry_of_lt m hj']
      · rw [if_neg hj', if_neg (by omega)]
    · rw [hrow (by omega), hrow' (by omega), ite_self, ite_self]
  · rw [resizedEntry_last, resizedEntry_last, hsize]
    by_cases hi' : i < a
    · rw [hentry i a hi' (by omega), Option.getD_some, resizedEntry_last]
    · rw [hrow (by omega), hrow' (by omega)]

private theorem eq_of_entry? {m m' : AugmentedMatrix α} (hsize : m.size = m'.size)
    (hentry : ∀ i j, i < m.size → j < m.size + 1 → m.entry? i j = m'.entry? i j) : m = m' := by
  obtain ⟨n, rows, hn, hfinite⟩ := m
  obtain ⟨n', rows', hn', hfinite'⟩ := m'
  obtain rfl : n = n' := hsize
  have hrows : rows = rows' := Rows.ext fun i j => by
    have h := hentry i j i.isLt j.isLt
    rw [entry?_eq_some _ i.isLt j.isLt, entry?_eq_some _ i.isLt j.isLt] at h
    exact Option.some.inj h
  subst hrows
  rfl

private theorem resized_size (m : AugmentedMatrix α) : m.resized m.size = .ok m := by
  obtain ⟨m', hm', hsize, hentry⟩ := m.resized_eq_ok m.size_pos
  rw [hm', Except.ok.injEq]
  apply eq_of_entry? hsize
  rw [hsize]
  intro i j hi hj
  rw [hentry i j hi hj, entry?_eq_some m hi hj, Option.some_inj]
  rcases Nat.lt_succ_iff_lt_or_eq.mp hj with hj | rfl
  · rw [resizedEntry_of_lt m hj, if_pos hj, entry?_eq_some m hi (by omega), Option.getD_some]
  · rw [resizedEntry_last, entry?_eq_some m hi hj, Option.getD_some]

/-- Of all lists of rows the well formed ones are matrices, the others have a first fault. A matrix of any
origin is made of its rows, so it is well formed. It can be resized to any size but zero and keeps the
entries that both sizes have, also on the way over any third size that has them. -/
theorem wellFormed_and_resizable :
    (∀ rows : List (List α),
      ((∃ m, ofRows rows = .ok m) ↔ 1 ≤ rows.length ∧ ∀ row ∈ rows, Proper rows.length row) ∧
      (∀ m, ofRows rows = .ok m → m.toLists = rows) ∧
      ∀ e, ofRows rows = .error e ↔ FirstFault rows e) ∧
    ∀ m : AugmentedMatrix α, ofRows m.toLists = .ok m ∧
      (∀ k, 1 ≤ k → ∃ m', m.resized k = .ok m' ∧ Keeps m k m') ∧
      (∀ a b, 1 ≤ a → 1 ≤ b → min m.size b ≤ a →
        (m.resized a).bind (·.resized b) = m.resized b) ∧
      ∀ a, m.size ≤ a → (m.resized a).bind (·.resized m.size) = .ok m := by
  refine ⟨fun rows => ⟨exists_ofRows_eq_ok_iff, fun m => toLists_of_ofRows, fun e =>
    ofRows_eq_error_iff⟩, fun m => ⟨ofRows_toLists m, fun k => m.exists_resized, ?_, ?_⟩⟩
  · intro a b ha _ hle
    exact m.resized_resized ha hle
  · intro a hle
    rw [m.resized_resized (Nat.le_trans m.size_pos hle) (by omega), resized_size]

def twoRows : AugmentedMatrix Float :=
  ⟨2, #v[#v[1, 2, 3], #v[4, 5, 6]], Nat.two_pos, by decide +kernel⟩

theorem wellFormed_and_resizable_twoRows : ofRows [[1, 2, 3], [4, 5, 6]] = .ok twoRows ∧
    (∃ m', twoRows.resized 3 = .ok m' ∧ Keeps twoRows 3 m') ∧
    (twoRows.resized 3).bind (·.resized 1) = twoRows.resized 1 ∧
    (twoRows.resized 3).bind (·.resized 2) = .ok twoRows := by
  obtain ⟨hrows, hkeeps, hover, hback⟩ := wellFormed_and_resizable.2 twoRows
  exact ⟨hrows, hkeeps 3 (by decide), hover 3 1 (by decide) (by decide) (by decide),
    hback 3 (by decide)⟩

end AugmentedMatrix

end EquationSolver.Linear
