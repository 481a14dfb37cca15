import EquationSolver.Text.Blank
import EquationSolver.Text.Lines

/-!
# Fields

The fields of a line stand between its blanks. A row of words that are moved to the right ends of fields
of one width has these words as its fields, exactly if every word but the first leaves room for a blank.
-/

namespace EquationSolver.Text

def fields (text : List Char) : List (List Char) :=
  (text.splitOnP isBlank).filter (!·.isEmpty)

def grid (text : String) : List (List (List Char)) :=
  (lines text.toList).map fields

structure IsWord (word : List Char) : Prop where
  ne_nil : word ≠ []
  solid : ∀ c ∈ word, isBlank c = false

instance (word : List Char) : Decidable (IsWord word) :=
  decidable_of_iff (word ≠ [] ∧ word.all (!isBlank ·) = true)
    ⟨fun h => ⟨h.1, by simpa using h.2⟩, fun h => ⟨h.ne_nil, by simpa using h.solid⟩⟩

theorem isWord_of_printed {word : List Char} (hne : word ≠ [])
    (h : ∀ c ∈ word, 33 ≤ c.toNat ∧ c.toNat ≤ 126) : IsWord word where
  ne_nil := hne
  solid c hc := by
    have := h c hc
    simp [isBlank, blankRanges]
    omega

variable {word last line rest : List Char} {words : List (List Char)} {width : Nat} {c : Char}

private theorem IsWord.append (h : IsWord last) (h' : IsWord word) : IsWord (last ++ word) where
  ne_nil := List.append_ne_nil_of_left_ne_nil h.ne_nil word
  solid c hc := (List.mem_append.mp hc).elim (h.solid c) (h'.solid c)

theorem fields_append_cons (text rest : List Char) (h : isBlank c = true) :
    fields (text ++ c :: rest) = fields text ++ fields rest := by
  rw [fields, List.splitOnP_append_cons text rest h, List.filter_append]
  rfl

private theorem fields_cons (rest : List Char) (h : isBlank c = true) : fields (c :: rest) = fields rest :=
  fields_append_cons [] rest h

theorem fields_word (h : IsWord word) : fields word = [word] := by
  rw [fields, List.splitOnP_eq_singleton h.solid]
  simp [h.ne_nil]

private theorem fields_spaces (n : Nat) (rest : List Char) :
    fields (List.replicate n ' ' ++ rest) = fields rest := by
  induction n with
  | zero => rfl
  | succ n ih =>
    rw [List.replicate_succ, List.cons_append, fields_cons _ (by decide)]
    exact ih

theorem fields_leftpad (width : Nat) (word rest : List Char) :
    fields (word.leftpad width ' ' ++ rest) = fields (word ++ rest) := by
  rw [List.leftpad, List.append_assoc, fields_spaces]

/-! ## Rows -/

/-- The words of a row as they are read back: one that fills its field is joined to the word in front. -/
def joined (width : Nat) : List Char → List (List Char) → List (List Char)
  | last, [] => [last]
  | last, word :: words =>
      if word.length < width then last :: joined width word words else joined width (last ++ word) words

def row (width : Nat) (words : List (List Char)) : List Char :=
  words.flatMap (·.leftpad width ' ')

theorem fields_row (h : IsWord last) (hwords : ∀ word ∈ words, IsWord word) :
    fields (last ++ row width words) = joined width last words := by
  induction words generalizing last with
  | nil =>
    rw [row, List.flatMap_nil, List.append_nil, fields_word h]
    rfl
  | cons word words ih =>
    have hword := hwords word List.mem_cons_self
    have hrest := fun word hmem => hwords word (List.mem_cons_of_mem _ hmem)
    have hrow : row width (word :: words) = word.leftpad width ' ' ++ row width words :=
      List.flatMap_cons
    rw [hrow, joined]
    split
    · next hlt =>
      obtain ⟨n, hn⟩ := Nat.exists_eq_succ_of_ne_zero (Nat.sub_ne_zero_of_lt hlt)
      rw [List.leftpad, hn, List.replicate_succ, List.cons_append, List.cons_append,
        fields_append_cons last _ (by decide), List.append_assoc, fields_spaces, ih hword hrest,
        fields_word h]
      rfl
    · next hge =>
      have hfull : word.leftpad width ' ' = word := by
        rw [List.leftpad, Nat.sub_eq_zero_of_le (Nat.le_of_not_lt hge)]
        rfl
      rw [hfull, ← List.append_assoc, ih (h.append hword) hrest]

/-- A row is read back as a field for its first word and one for every word with room for a blank. -/
theorem length_joined (width : Nat) (last : List Char) (words : List (List Char)) :
    (joined width last words).length = words.countP (·.length < width) + 1 := by
  induction words generalizing last with
  | nil => rfl
  | cons word words ih =>
    rw [joined]
    split
    · next hlt =>
      rw [List.length_cons, ih, List.countP_cons_of_pos (by simpa using hlt)]
    · next hge =>
      rw [ih, List.countP_cons_of_neg (by simpa using hge)]

private theorem length_joined_le (width : Nat) (last : List Char) (words : List (List Char)) :
    (joined width last words).length ≤ words.length + 1 := by
  rw [length_joined]
  exact Nat.succ_le_succ List.countP_le_length

theorem length_joined_eq_iff :
    (joined width last words).length = words.length + 1 ↔ ∀ word ∈ words, word.length < width := by
  simp [length_joined, List.countP_eq_length]

theorem joined_eq_iff :
    joined width last words = last :: words ↔ ∀ word ∈ words, word.length < width := by
  constructor
  · intro h
    exact length_joined_eq_iff.mp (congrArg List.length h)
  · intro h
    induction words generalizing last with
    | nil => rfl
    | cons word words ih =>
      rw [joined, if_pos (h word List.mem_cons_self),
        ih fun word hword => h word (List.mem_cons_of_mem _ hword)]

/-- Two rows are read back as one exactly if each is, since neither has more fields than words. -/
theorem joined_append_eq_iff {last' : List Char} {words' : List (List Char)} :
    joined width last words ++ joined width last' words' = (last :: words) ++ (last' :: words') ↔
      (∀ word ∈ words, word.length < width) ∧ ∀ word ∈ words', word.length < width := by
  rw [← @joined_eq_iff last, ← @joined_eq_iff last']
  constructor
  · intro h
    apply List.append_inj h
    have hlength := congrArg List.length h
    have hleft := length_joined_le width last words
    have hright := length_joined_le width last' words'
    simp only [List.length_append, List.length_cons] at hlength ⊢
    omega
  · rintro ⟨hleft, hright⟩
    rw [hleft, hright]

/-- A text with blanks around every occurrence of a mark. -/
def setApart (mark : Char) (text : List Char) : List Char :=
  text.flatMap fun c => if c = mark then [' ', mark, ' '] else [c]

private theorem setApart_of_not_mem {mark : Char} (h : mark ∉ line) : setApart mark line = line := by
  induction line with
  | nil => rfl
  | cons c line ih =>
    have hrest := ih fun hmem => h (List.mem_cons_of_mem _ hmem)
    rw [setApart] at hrest ⊢
    rw [List.flatMap_cons, hrest, if_neg]
    · rfl
    · rintro rfl
      exact h List.mem_cons_self

theorem fields_setApart {mark : Char} (hmark : isBlank mark = false) (hline : mark ∉ line)
    (hrest : mark ∉ rest) :
    fields (setApart mark (line ++ mark :: rest)) = fields line ++ [mark] :: fields rest := by
  have hapart : setApart mark (line ++ mark :: rest) = line ++ ' ' :: ([mark] ++ ' ' :: rest) := by
    have happend : setApart mark (line ++ mark :: rest) =
        setApart mark line ++ ([' ', mark, ' '] ++ setApart mark rest) := by
      simp [setApart]
    rw [happend, setApart_of_not_mem hline, setApart_of_not_mem hrest]
    rfl
  have hword : IsWord [mark] := ⟨List.cons_ne_nil mark [], by simpa using hmark⟩
  rw [hapart, fields_append_cons line _ (by decide), fields_append_cons [mark] _ (by decide),
    fields_word hword, List.singleton_append]

/-! ## Lines -/

def OneLine (line : List Char) : Prop :=
  ∀ c ∈ line, c ≠ '\n' ∧ c ≠ '\r'

theorem oneLine_append {line' : List Char} (h : OneLine line) (h' : OneLine line') :
    OneLine (line ++ line') :=
  fun c hc => (List.mem_append.mp hc).elim (h c) (h' c)

theorem IsWord.oneLine (h : IsWord word) : OneLine word := by
  intro c hc
  have hsolid := h.solid c hc
  constructor
  all_goals
    rintro rfl
    cases hsolid

theorem oneLine_leftpad (h : OneLine line) (width : Nat) : OneLine (line.leftpad width ' ') := by
  refine oneLine_append (fun c hc => ?_) h
  obtain rfl := List.eq_of_mem_replicate hc
  decide

theorem oneLine_row (h : ∀ word ∈ words, IsWord word) (width : Nat) : OneLine (row width words) := by
  intro c hc
  obtain ⟨word, hword, hc⟩ := List.mem_flatMap.mp hc
  exact oneLine_leftpad (h word hword).oneLine width c hc

private theorem lines_cons {c : Char} {rest line : List Char} {more : List (List Char)}
    (h : c ≠ '\n' ∧ c ≠ '\r') (hrest : lines rest = line :: more) :
    lines (c :: rest) = (c :: line) :: more := by
  rw [lines]
  · rw [hrest]
  · exact h.1
  · exact fun _ hc => absurd hc h.2

private theorem lines_append (h : OneLine line) (rest : List Char) :
    lines (line ++ '\n' :: rest) = line :: lines rest := by
  induction line with
  | nil => rfl
  | cons c line ih =>
    exact lines_cons (h c List.mem_cons_self) (ih fun c hc => h c (List.mem_cons_of_mem _ hc))

private theorem lines_last (h : OneLine line) (hne : line ≠ []) : lines line = [line] := by
  induction line with
  | nil => exact absurd rfl hne
  | cons c line ih =>
    have hc := h c List.mem_cons_self
    cases line with
    | nil =>
      rw [lines]
      · rfl
      · exact hc.1
      · exact fun _ hc' => absurd hc' hc.2
    | cons d line =>
      exact lines_cons hc (ih (fun c hc => h c (List.mem_cons_of_mem _ hc)) (List.cons_ne_nil d line))

theorem lines_flatMap {all : List (List Char)} (h : ∀ line ∈ all, OneLine line) :
    lines (all.flatMap (· ++ ['\n'])) = all := by
  induction all with
  | nil => rfl
  | cons line all ih =>
    rw [List.flatMap_cons, List.append_assoc, List.singleton_append, lines_append (h line List.mem_cons_self),
      ih fun line hline => h line (List.mem_cons_of_mem _ hline)]

theorem lines_intercalate {all : List (List Char)} (h : ∀ line ∈ all, OneLine line ∧ line ≠ []) :
    lines (['\n'].intercalate all) = all := by
  induction all with
  | nil => rfl
  | cons line all ih =>
    have hline := h line List.mem_cons_self
    cases all with
    | nil =>
      rw [List.intercalate_singleton, lines_last hline.1 hline.2]
    | cons next all =>
      rw [List.intercalate_cons_cons, List.append_assoc, List.singleton_append, lines_append hline.1,
        ih fun line hline => h line (List.mem_cons_of_mem _ hline)]

end EquationSolver.Text
