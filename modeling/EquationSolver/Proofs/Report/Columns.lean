import EquationSolver.Proofs.Decimal.Fixed
import EquationSolver.Proofs.Text.Fields
import EquationSolver.Proofs.Roots.Method
import EquationSolver.Report.Table

/-!
# Reading tables back

The columns of a table are set apart by the blanks that fill up their fields, and by nothing else. A line
is read back as the texts in its columns exactly if no number but the first in it fills its field.
-/

namespace EquationSolver.Report

open Roots Linear Text Floats Decimal

/-- Whether a number that has a value has it strictly between two bounds. -/
def Between (low high : ℚ) (x : Float) : Prop :=
  x.isFinite = true → low < value x ∧ value x < high

private theorem length_fixed_six_lt_iff (x : Float) :
    (fixed 6 x).toList.length < numberWidth ↔ Between (-99999.9999995) 999999.9999995 x := by
  have hlow : -widthBound 6 5 = -99999.9999995 := by norm_num [widthBound]
  have hhigh : widthBound 6 6 = 999999.9999995 := by norm_num [widthBound]
  rw [Between, ← hlow, ← hhigh]
  exact length_fixed_lt_iff (Nat.succ_pos 5) (Nat.succ_pos 4) x

private theorem length_fixed_four_lt_iff (x : Float) :
    (fixed 4 x).toList.length < 10 ↔ Between (-999.99995) 9999.99995 x := by
  have hlow : -widthBound 4 3 = -999.99995 := by norm_num [widthBound]
  have hhigh : widthBound 4 4 = 9999.99995 := by norm_num [widthBound]
  rw [Between, ← hlow, ← hhigh]
  exact length_fixed_lt_iff (Nat.succ_pos 3) (Nat.succ_pos 2) x

private theorem isWord_fixed {places : Nat} (hplaces : 0 < places) (x : Float) :
    IsWord (fixed places x).toList := by
  apply isWord_of_printed (fixed_ne_nil hplaces x)
  intro c hc
  have := mem_fixed hc
  omega

private theorem isWord_toString (n : Nat) : IsWord (toString n).toList := by
  rw [Nat.toString_eq_repr, Nat.toList_repr]
  apply isWord_of_printed Nat.toDigits_ne_nil
  intro c hc
  have hdigit : 48 ≤ c.toNat ∧ c.toNat ≤ 57 :=
    Char.isDigit_iff_toNat.mp (Nat.isDigit_of_mem_toDigits (by decide) (by decide) hc)
  omega

private theorem toList_rightAlign (width : Nat) (s : String) :
    (rightAlign width s).toList = s.toList.leftpad width ' ' :=
  String.toList_ofList

/-! ## Tables -/

def tableRow (first : String) (rest : List String) : List Char :=
  first.toList.leftpad iterationWidth ' ' ++ row numberWidth (rest.map String.toList)

private theorem toList_tableLine (first : String) (rest : List String) :
    (tableLine first rest).toList = tableRow first rest ++ ['\n'] := by
  simp [tableLine, tableRow, row, toList_rightAlign, List.flatMap_map]

section Rows

variable {first : String} {rest : List String}

private theorem fields_tableRow (hfirst : IsWord first.toList) (hrest : ∀ s ∈ rest, IsWord s.toList) :
    fields (tableRow first rest) = joined numberWidth first.toList (rest.map String.toList) := by
  rw [tableRow, fields_leftpad, fields_row hfirst]
  simpa using hrest

private theorem oneLine_tableRow (hfirst : IsWord first.toList) (hrest : ∀ s ∈ rest, IsWord s.toList) :
    OneLine (tableRow first rest) := by
  apply oneLine_append (oneLine_leftpad hfirst.oneLine _)
  apply oneLine_row
  simpa using hrest

private theorem fields_tableRow_eq_iff (hfirst : IsWord first.toList)
    (hrest : ∀ s ∈ rest, IsWord s.toList) :
    fields (tableRow first rest) = (first :: rest).map String.toList ↔
      ∀ s ∈ rest, s.toList.length < numberWidth := by
  rw [fields_tableRow hfirst hrest, List.map_cons, joined_eq_iff]
  simp

end Rows

section Records

variable {ρ : Type} [Tabular ρ]

/-- Whether the headers of a table are read back from its first line, one for each value of a record. -/
structure Titled (ρ : Type) [Tabular ρ] : Prop where
  isWord : ∀ header ∈ Tabular.headers ρ, IsWord header.toList
  short : ∀ header ∈ Tabular.headers ρ, header.toList.length < numberWidth
  length_values : ∀ r : ρ, (Tabular.values r).length = (Tabular.headers ρ).length

private theorem titled_bisection : Titled (Bisection.Record Float) where
  isWord := by decide
  short := by decide
  length_values _ := rfl

private theorem titled_secant : Titled (Secant.Record Float) where
  isWord := by decide
  short := by decide
  length_values _ := rfl

def recordFields (r : ρ) : List String :=
  toString (IterationRecord.iter r) :: (Tabular.values r).map (fixed 6)

def recordRow (r : ρ) : List Char :=
  tableRow (toString (IterationRecord.iter r)) ((Tabular.values r).map (fixed 6))

private theorem isWord_of_mem_values {r : ρ} : ∀ s ∈ (Tabular.values r).map (fixed 6), IsWord s.toList := by
  intro s hs
  obtain ⟨x, -, rfl⟩ := List.mem_map.mp hs
  exact isWord_fixed (Nat.succ_pos 5) x

private theorem fields_recordRow_eq_iff (r : ρ) :
    fields (recordRow r) = (recordFields r).map String.toList ↔
      ∀ x ∈ Tabular.values r, Between (-99999.9999995) 999999.9999995 x := by
  rw [recordRow, recordFields, fields_tableRow_eq_iff (isWord_toString _) isWord_of_mem_values]
  simp only [List.forall_mem_map, length_fixed_six_lt_iff]

private theorem length_fields_recordRow_eq_iff (r : ρ) :
    (fields (recordRow r)).length = (Tabular.values r).length + 1 ↔
      ∀ x ∈ Tabular.values r, Between (-99999.9999995) 999999.9999995 x := by
  have hlength : (Tabular.values r).length =
      (((Tabular.values r).map (fixed 6)).map String.toList).length := by simp
  rw [recordRow, fields_tableRow (isWord_toString _) isWord_of_mem_values, hlength, length_joined_eq_iff]
  simp only [List.forall_mem_map, length_fixed_six_lt_iff]

private theorem lines_table (h : Titled ρ) (records : Array ρ) :
    lines (table records).toList =
      tableRow "Iteration" (Tabular.headers ρ) :: records.toList.map recordRow := by
  have hrecord : ∀ r : ρ, (recordLine r).toList = recordRow r ++ ['\n'] := fun r => toList_tableLine _ _
  have htext : (table records).toList =
      (tableRow "Iteration" (Tabular.headers ρ) :: records.toList.map recordRow).flatMap (· ++ ['\n']) := by
    simp only [table, String.toList_append, String.toList_join, toList_tableLine, List.flatMap_map, hrecord,
      List.flatMap_cons]
  rw [htext]
  apply lines_flatMap
  intro line hline
  rcases List.mem_cons.mp hline with rfl | hline
  · exact oneLine_tableRow (by decide) h.isWord
  · obtain ⟨r, -, rfl⟩ := List.mem_map.mp hline
    exact oneLine_tableRow (isWord_toString _) isWord_of_mem_values

private theorem grid_table (h : Titled ρ) (records : Array ρ) :
    grid (table records) = fields (tableRow "Iteration" (Tabular.headers ρ)) ::
      records.toList.map fun r => fields (recordRow r) := by
  rw [grid, lines_table h, List.map_cons, List.map_map, Function.comp_def]

/-- What is read back of the table of a run. -/
structure TableRead (records : Array ρ) : Prop where
  length_eq : (grid (table records)).length = records.size + 1
  /-- The first line has a header for each column. -/
  titles_eq : (grid (table records))[0]? = some (("Iteration" :: Tabular.headers ρ).map String.toList)
  /-- The fields of a line are the texts of its record, and none of its values fills its column. -/
  record_iff : ∀ (i : Nat) (hi : i < records.size),
    (grid (table records))[i + 1]? = some ((recordFields records[i]).map String.toList) ↔
      ∀ x ∈ Tabular.values records[i], Between (-99999.9999995) 999999.9999995 x
  /-- A line that has not these fields has not as many fields as there are columns. -/
  columns_iff : ∀ (i : Nat) (hi : i < records.size),
    (grid (table records))[i + 1]?.map List.length = some ((Tabular.headers ρ).length + 1) ↔
      ∀ x ∈ Tabular.values records[i], Between (-99999.9999995) 999999.9999995 x

theorem tableRead (h : Titled ρ) (records : Array ρ) : TableRead records := by
  have hgrid := grid_table h records
  have hline : ∀ (i : Nat) (hi : i < records.size),
      (grid (table records))[i + 1]? = some (fields (recordRow records[i])) := by
    intro i hi
    simp [hgrid, hi]
  exact {
    length_eq := by simp [hgrid]
    titles_eq := by
      rw [hgrid, (fields_tableRow_eq_iff (by decide) h.isWord).mpr h.short]
      rfl
    record_iff := fun i hi => by
      rw [hline i hi, Option.some_inj, fields_recordRow_eq_iff]
    columns_iff := fun i hi => by
      rw [hline i hi, Option.map_some, Option.some_inj, ← h.length_values records[i],
        length_fields_recordRow_eq_iff] }

end Records

/-! ## Matrices -/

/-- The fields of a line with the bar in front of the constant set apart by blanks. -/
def barredFields (line : List Char) : List (List Char) :=
  fields (setApart '|' line)

variable {n : Nat}

/-- The texts of the coefficients of a row, a bar, and the text of its constant. -/
def rowFields (entries : Vector Float (n + 1)) : List String :=
  entries.toList.dropLast.map (fixed 4) ++ ["|", fixed 4 (entries.get (Fin.last n))]

private theorem toList_matrixField (x : Float) :
    (matrixField x).toList = (fixed 4 x).toList.leftpad 10 ' ' :=
  toList_rightAlign 10 (fixed 4 x)

def later (entries : Vector Float (n + 2)) : List Float :=
  List.ofFn fun j : Fin n => entries.get j.castSucc.succ

private theorem dropLast_eq (entries : Vector Float (n + 2)) :
    entries.toList.dropLast = entries.get 0 :: later entries := by
  rw [later]
  apply List.ext_getElem
  · simp
  · intro i hi hi'
    cases i with
    | zero => simp [Vector.get_eq_getElem]
    | succ i => simp [Vector.get_eq_getElem]

private theorem forall_between_iff {P : Fin (n + 2) → Prop} :
    (∀ j, 0 < j → j < Fin.last _ → P j) ↔ ∀ j : Fin n, P j.castSucc.succ := by
  constructor
  · intro h j
    exact h _ (Fin.succ_pos _) (Fin.succ_lt_succ_iff.mpr (Fin.castSucc_lt_last j))
  · intro h j hpos hlt
    obtain ⟨i, rfl⟩ := Fin.exists_succ_eq.mpr hpos.ne'
    obtain ⟨k, rfl⟩ := Fin.exists_castSucc_eq.mpr (fun hlast => hlt.ne (congrArg Fin.succ hlast))
    exact h k

private theorem forall_pos_iff {P : Fin (n + 2) → Prop} :
    (∀ j, 0 < j → P j) ↔ (∀ j, 0 < j → j < Fin.last _ → P j) ∧ P (Fin.last _) := by
  constructor
  · intro h
    exact ⟨fun j hpos _ => h j hpos, h _ Fin.last_pos⟩
  · rintro ⟨h, hlast⟩ j hpos
    rcases (Fin.le_last j).lt_or_eq with hlt | rfl
    · exact h j hpos hlt
    · exact hlast

section Lines

variable (entries : Vector Float (n + 2))

def entryText (j : Fin (n + 2)) : List Char :=
  (fixed 4 (entries.get j)).toList

private theorem isWord_entryText (j : Fin (n + 2)) : IsWord (entryText entries j) :=
  isWord_fixed (Nat.succ_pos 3) _

def laterTexts : List (List Char) :=
  (later entries).map fun x => (fixed 4 x).toList

private theorem isWord_of_mem_laterTexts : ∀ word ∈ laterTexts entries, IsWord word :=
  List.forall_mem_map.mpr fun x _ => isWord_fixed (Nat.succ_pos 3) x

private theorem short_laterTexts_iff : (∀ word ∈ laterTexts entries, word.length < 10) ↔
    ∀ j, 0 < j → j < Fin.last _ → Between (-999.99995) 9999.99995 (entries.get j) := by
  rw [forall_between_iff, laterTexts, List.forall_mem_map, later, List.forall_mem_ofFn_iff]
  simp only [length_fixed_four_lt_iff]

private theorem rowFields_eq : (rowFields entries).map String.toList =
    (entryText entries 0 :: laterTexts entries) ++ ['|'] :: [entryText entries (Fin.last _)] := by
  simp [rowFields, dropLast_eq, laterTexts, entryText]

def coefficientsText : List Char :=
  (entryText entries 0).leftpad 10 ' ' ++ row 10 (laterTexts entries)

private theorem toList_matrixLine : (matrixLine entries).toList =
    coefficientsText entries ++ ' ' :: '|' :: (entryText entries (Fin.last _)).leftpad 10 ' ' := by
  simp [matrixLine, coefficientsText, row, toList_matrixField, dropLast_eq, laterTexts, entryText,
    List.flatMap_map]

private theorem fields_coefficientsText :
    fields (coefficientsText entries) = joined 10 (entryText entries 0) (laterTexts entries) := by
  rw [coefficientsText, fields_leftpad,
    fields_row (isWord_entryText entries 0) (isWord_of_mem_laterTexts entries)]

private theorem bar_not_mem_leftpad (x : Float) : '|' ∉ (fixed 4 x).toList.leftpad 10 ' ' := by
  intro h
  rcases List.mem_append.mp h with hc | hc
  · cases List.eq_of_mem_replicate hc
  · exact absurd (mem_fixed hc).2 (by decide)

private theorem bar_not_mem_coefficientsText : '|' ∉ coefficientsText entries := by
  intro h
  rcases List.mem_append.mp h with hc | hc
  · exact bar_not_mem_leftpad _ hc
  · obtain ⟨_, hword, hc⟩ := List.mem_flatMap.mp hc
    obtain ⟨x, -, rfl⟩ := List.mem_map.mp hword
    exact bar_not_mem_leftpad x hc

private theorem oneLine_matrixLine : OneLine (matrixLine entries).toList := by
  have hentry := fun j => oneLine_leftpad (isWord_entryText entries j).oneLine 10
  have hbar : OneLine [' ', '|'] := by simp [OneLine]
  rw [toList_matrixLine]
  exact oneLine_append
    (oneLine_append (hentry 0) (oneLine_row (isWord_of_mem_laterTexts entries) 10))
    (oneLine_append hbar (hentry _))

private theorem fields_matrixLine_eq_iff :
    fields (matrixLine entries).toList = (rowFields entries).map String.toList ↔
      ∀ j, 0 < j → Between (-999.99995) 9999.99995 (entries.get j) := by
  have hbar : fields ('|' :: (entryText entries (Fin.last _)).leftpad 10 ' ') =
      joined 10 ['|'] [entryText entries (Fin.last _)] := by
    rw [← fields_row (by decide) (by simpa using isWord_entryText entries _), row, List.flatMap_singleton]
    rfl
  rw [toList_matrixLine, rowFields_eq, fields_append_cons _ _ (by decide), fields_coefficientsText, hbar,
    joined_append_eq_iff, short_laterTexts_iff,
    forall_pos_iff (P := fun j => Between _ _ (entries.get j))]
  simp only [List.mem_singleton, forall_eq, entryText, length_fixed_four_lt_iff]

private theorem barredFields_matrixLine_eq_iff :
    barredFields (matrixLine entries).toList = (rowFields entries).map String.toList ↔
      ∀ j, 0 < j → j < Fin.last _ → Between (-999.99995) 9999.99995 (entries.get j) := by
  have hline : (matrixLine entries).toList = (coefficientsText entries ++ [' ']) ++
      '|' :: (entryText entries (Fin.last _)).leftpad 10 ' ' := by
    rw [toList_matrixLine, List.append_assoc, List.singleton_append]
  have hbefore : '|' ∉ coefficientsText entries ++ [' '] := by
    rw [List.mem_append, not_or]
    exact ⟨bar_not_mem_coefficientsText entries, by decide⟩
  have hcoefficients : fields (coefficientsText entries ++ [' ']) =
      joined 10 (entryText entries 0) (laterTexts entries) := by
    rw [fields_append_cons _ _ (by decide), fields_coefficientsText]
    exact List.append_nil _
  have hconstant : fields ((entryText entries (Fin.last _)).leftpad 10 ' ') =
      [entryText entries (Fin.last _)] := by
    have hpadded := fields_leftpad 10 (entryText entries (Fin.last _)) []
    rwa [List.append_nil, List.append_nil, fields_word (isWord_entryText entries _)] at hpadded
  have hafter : '|' ∉ (entryText entries (Fin.last _)).leftpad 10 ' ' := bar_not_mem_leftpad _
  rw [barredFields, hline, fields_setApart (by decide) hbefore hafter, hcoefficients, hconstant, rowFields_eq,
    List.append_left_inj, joined_eq_iff, short_laterTexts_iff]

end Lines

/-- What is read back of the text of a matrix. -/
structure MatrixRead (m : AugmentedMatrix Float) : Prop where
  length_eq : (grid (matrixText m)).length = m.size
  /-- The fields of a line are the texts of its row, and no entry but the first fills its column. -/
  row_iff : ∀ i : Fin m.size,
    (grid (matrixText m))[i.val]? = some ((rowFields (m.rows.get i)).map String.toList) ↔
      ∀ j, 0 < j → Between (-999.99995) 9999.99995 (m.rows.entry i j)
  /-- The constant may fill its column if the bar in front of it is a field in any case. -/
  barred_iff : ∀ i : Fin m.size,
    (lines (matrixText m).toList)[i.val]?.map barredFields =
        some ((rowFields (m.rows.get i)).map String.toList) ↔
      ∀ j, 0 < j → j < Fin.last _ → Between (-999.99995) 9999.99995 (m.rows.entry i j)

private theorem lines_matrixText (m : AugmentedMatrix Float) :
    lines (matrixText m).toList = m.rows.toList.map fun entries => (matrixLine entries).toList := by
  obtain ⟨size, rows, size_pos, finite⟩ := m
  obtain ⟨n, rfl⟩ := Nat.exists_eq_succ_of_ne_zero size_pos.ne'
  rw [matrixText, String.toList_intercalate, List.map_map]
  apply lines_intercalate
  intro line hline
  obtain ⟨entries, -, rfl⟩ := List.mem_map.mp hline
  refine ⟨oneLine_matrixLine entries, ?_⟩
  rw [Function.comp_apply, toList_matrixLine]
  simp

theorem matrixRead (m : AugmentedMatrix Float) : MatrixRead m := by
  have hlines := lines_matrixText m
  obtain ⟨size, rows, size_pos, finite⟩ := m
  obtain ⟨n, rfl⟩ := Nat.exists_eq_succ_of_ne_zero size_pos.ne'
  have hline : ∀ i : Fin (n + 1), (lines (matrixText ⟨n + 1, rows, size_pos, finite⟩).toList)[i.val]? =
      some (matrixLine (rows.get i)).toList := by
    intro i
    rw [hlines, List.getElem?_map, Vector.getElem?_toList, Vector.getElem?_eq_getElem i.isLt]
    rfl
  exact {
    length_eq := by simp [grid, hlines]
    row_iff := fun i => by
      rw [grid, List.getElem?_map, hline, Option.map_some, Option.some_inj, fields_matrixLine_eq_iff]
      rfl
    barred_iff := fun i => by
      rw [hline, Option.map_some, Option.some_inj, barredFields_matrixLine_eq_iff]
      rfl }

/-! ## Tables and matrices -/

/-- A table and a matrix are read back line by line, each line exactly if the numbers that need a blank in
front of them leave room for one: those of a table all, those of a matrix all but the first of a row. -/
theorem lines_readable_iff (halvings : Array (Bisection.Record Float)) (secants : Array (Secant.Record Float))
    (m : AugmentedMatrix Float) : TableRead halvings ∧ TableRead secants ∧ MatrixRead m :=
  ⟨tableRead titled_bisection halvings, tableRead titled_secant secants, matrixRead m⟩

/-- The secants of the identity between two large numbers, and a matrix with a number in each of two rows
that fills its column. -/
theorem lines_merged :
    (∃ solution, (Secant.run (.ok : Model Empty Float) 1e6 2e6 .standard Observer.silent ()).result =
        .ok solution ∧
      solution.trace.toList.map recordFields =
        [["1", "1000000.000000", "2000000.000000", "1000000.000000", "2000000.000000", "0.000000",
          "2000000.000000"],
        ["2", "2000000.000000", "0.000000", "2000000.000000", "0.000000", "0.000000", "0.000000"]] ∧
      (grid (table solution.trace)).tail =
        [["11000000.0000002000000.0000001000000.0000002000000.000000", "0.0000002000000.000000"],
        ["22000000.000000", "0.0000002000000.000000", "0.000000", "0.000000", "0.000000"]].map
          (·.map String.toList)) ∧
    ∃ m : AugmentedMatrix Float, m.rows.toList.map rowFields =
        [["1.0000", "-1000.0000", "|", "5.0000"], ["2.0000", "3.0000", "|", "12345.0000"]] ∧
      grid (matrixText m) =
        [["1.0000-1000.0000", "|", "5.0000"], ["2.0000", "3.0000", "|12345.0000"]].map
          (·.map String.toList) := by
  have htable : ∃ solution, (Secant.run (.ok : Model Empty Float) 1e6 2e6 .standard Observer.silent
        ()).result = .ok solution ∧
      decide (solution.trace.toList.map recordFields =
          [["1", "1000000.000000", "2000000.000000", "1000000.000000", "2000000.000000", "0.000000",
            "2000000.000000"],
          ["2", "2000000.000000", "0.000000", "2000000.000000", "0.000000", "0.000000", "0.000000"]] ∧
        (solution.trace.toList.map fun r => fields (recordRow r)) =
          [["11000000.0000002000000.0000001000000.0000002000000.000000", "0.0000002000000.000000"],
          ["22000000.000000", "0.0000002000000.000000", "0.000000", "0.000000", "0.000000"]].map
            (·.map String.toList)) = true := exists_ok_of_check (by decide +kernel)
  simp only [decide_eq_true_eq] at htable
  simp only [grid_table titled_secant, List.tail_cons]
  exact ⟨htable, ⟨2, #v[#v[1, -1000, 5], #v[2, 3, 12345]], by decide, by decide +kernel⟩, by decide +kernel⟩

end EquationSolver.Report
