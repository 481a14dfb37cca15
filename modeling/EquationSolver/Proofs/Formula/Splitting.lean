import EquationSolver.Formula.Lexer
import EquationSolver.Proofs.Decimal.Positional

/-!
# Splitting texts that are put together

Which tokens a text begins with, whatever comes behind them and wherever it stands. Statements about
texts that are put together from pieces follow from those about the pieces.
-/

namespace EquationSolver.Formula.Lexer

open EquationSolver.Text (isBlank)
open EquationSolver.Decimal (takeWhile_append_of_head)

/-- Whether a text is split into tokens of given kinds, in front of a rest that is split further. -/
def Splits (text rest : List Char) (kinds : List Token.Kind) : Prop :=
  ∀ start, ∃ (tokens : List Token) (start' : Nat), tokens.map Token.kind = kinds ∧
    items start text = tokens.map .ok ++ items start' rest

theorem Splits.refl (text : List Char) : Splits text text [] :=
  fun start => ⟨[], start, rfl, rfl⟩

theorem Splits.trans {text middle rest : List Char} {kinds kinds' : List Token.Kind}
    (h : Splits text middle kinds) (h' : Splits middle rest kinds') :
    Splits text rest (kinds ++ kinds') := by
  intro start
  obtain ⟨tokens, start', rfl, heq⟩ := h start
  obtain ⟨tokens', start'', rfl, heq'⟩ := h' start'
  exact ⟨tokens ++ tokens', start'', by simp, by simp [heq, heq']⟩

private theorem isBlank_eq_false {c : Char} (h : 33 ≤ c.toNat) (h' : c.toNat ≤ 126) :
    isBlank c = false := by
  simp [isBlank, Text.blankRanges]
  omega

private theorem isDigit_iff {c : Char} : c.isDigit = true ↔ 48 ≤ c.toNat ∧ c.toNat ≤ 57 := by
  simp [Char.isDigit, UInt32.le_iff_toNat_le]

private theorem toNat_of_isAlpha {c : Char} (h : c.isAlpha = true) : 65 ≤ c.toNat ∧ c.toNat ≤ 122 := by
  simp only [Char.isAlpha, Char.isUpper, Char.isLower, Bool.or_eq_true, Bool.and_eq_true,
    decide_eq_true_eq, ge_iff_le, UInt32.le_iff_toNat_le] at h
  rcases h with ⟨hl, hu⟩ | ⟨hl, hu⟩
  all_goals
    simp at hl hu
    omega

private theorem toNat_of_isNumeral {c : Char} (h : isNumeral c = true) : 46 ≤ c.toNat ∧ c.toNat ≤ 57 := by
  simp only [isNumeral, Bool.or_eq_true, isDigit_iff, beq_iff_eq] at h
  rcases h with h | rfl
  · omega
  · decide

theorem isBlank_of_isAlpha {c : Char} (h : c.isAlpha = true) : isBlank c = false := by
  have hrange := toNat_of_isAlpha h
  exact isBlank_eq_false (by omega) (by omega)

theorem isBlank_of_isNumeral {c : Char} (h : isNumeral c = true) : isBlank c = false := by
  have hrange := toNat_of_isNumeral h
  exact isBlank_eq_false (by omega) (by omega)

theorem isBlank_of_isDigit {c : Char} (h : c.isDigit = true) : isBlank c = false :=
  isBlank_of_isNumeral (by simp [isNumeral, h])

theorem items_eq_nil {text : List Char} (start : Nat) (h : text.dropWhile isBlank = []) :
    items start text = [] := by
  rw [items]
  split
  · rfl
  · next h' =>
    rw [h] at h'
    cases h'

private theorem items_nil (start : Nat) : items start [] = [] :=
  items_eq_nil start rfl

theorem items_eq {text : List Char} {c : Char} {rest : List Char} (start : Nat)
    (h : text.dropWhile isBlank = c :: rest) : items start text =
      match classify (start + (text.takeWhile isBlank).length) c (continuation c rest) with
      | .error e => [.error e]
      | .ok token => .ok token ::
        items (start + (text.takeWhile isBlank).length + ((continuation c rest).length + 1))
          (rest.drop (continuation c rest).length) := by
  rw [items]
  split
  · next h' =>
    rw [h] at h'
    cases h'
  · next h' =>
    rw [h] at h'
    cases h'
    rfl

theorem splits_blank (rest : List Char) : Splits (' ' :: rest) rest [] := by
  intro start
  refine ⟨[], start + 1, rfl, ?_⟩
  have hblank : isBlank ' ' = true := by decide
  rw [items, items]
  simp only [List.takeWhile_cons, hblank, if_true, List.length_cons,
    List.map_nil, List.nil_append, Nat.add_assoc, Nat.add_comm 1]
  rfl

private theorem splits_lexeme {c : Char} (more : List Char) {rest : List Char} {kind : Token.Kind}
    (hblank : isBlank c = false) (hmore : continuation c (more ++ rest) = more)
    (hkind : ∀ start, ∃ token, classify start c more = .ok token ∧ token.kind = kind) :
    Splits (c :: (more ++ rest)) rest [kind] := by
  intro start
  obtain ⟨token, hclass, rfl⟩ := hkind start
  refine ⟨[token], start + (more.length + 1), rfl, ?_⟩
  have hdrop : (c :: (more ++ rest)).dropWhile isBlank = c :: (more ++ rest) := by simp [hblank]
  have htake : (c :: (more ++ rest)).takeWhile isBlank = [] := by simp [hblank]
  rw [items_eq start hdrop, htake]
  simp [hmore, hclass]

theorem splits_symbol {c : Char} {kind : Token.Kind} (h : Token.Kind.ofChar? c = some kind)
    (rest : List Char) : Splits (c :: rest) rest [kind] := by
  unfold Token.Kind.ofChar? at h
  split at h
  all_goals cases h
  all_goals exact splits_lexeme [] (by decide) rfl fun start => ⟨_, rfl, rfl⟩

/-- What is no letter, no digit, no point and so continues no name and no number. -/
def Ends (rest : List Char) : Prop :=
  ∀ c ∈ rest.head?, c.isAlpha = false ∧ isNumeral c = false

theorem ends_nil : Ends [] := by
  intro c hc
  cases hc

theorem ends_cons {c : Char} {rest : List Char} (h : c.isAlpha = false ∧ isNumeral c = false) :
    Ends (c :: rest) := by
  rintro _ ⟨⟩
  exact h

theorem splits_name {c : Char} (more : List Char) {rest : List Char}
    (hword : ∀ l ∈ c :: more, l.isAlpha = true) (hrest : Ends rest) :
    Splits (c :: (more ++ rest)) rest [.name (String.ofList (c :: more))] := by
  have hc : c.isAlpha = true := hword c (by simp)
  have hrange := toNat_of_isAlpha hc
  have hnumeral : isNumeral c = false := by
    apply Bool.eq_false_iff.mpr
    intro hn
    have := toNat_of_isNumeral hn
    omega
  apply splits_lexeme more (isBlank_eq_false (by omega) (by omega))
  · have hmore : ∀ l ∈ more, l.isAlpha = true := by
      intro l hl
      exact hword l (List.mem_cons_of_mem c hl)
    have hend : ∀ l ∈ rest.head?, l.isAlpha = false := by
      intro l hl
      exact (hrest l hl).1
    simp only [continuation, hnumeral, hc]
    exact (takeWhile_append_of_head rest hmore hend).1
  · intro start
    simp [classify, hnumeral, hc]

private theorem exponentPart_eq_nil {rest : List Char} (hrest : Ends rest) : exponentPart rest = [] := by
  cases rest with
  | nil => rfl
  | cons mark rest =>
    have hmark := (hrest mark rfl).1
    have he : mark ≠ 'e' := by rintro rfl; simp at hmark
    have hE : mark ≠ 'E' := by rintro rfl; simp at hmark
    simp [exponentPart, he, hE]

structure IsExponent (mark : Char) (sign digits : List Char) : Prop where
  mark_eq : mark = 'e' ∨ mark = 'E'
  sign_eq : sign = [] ∨ sign = ['+'] ∨ sign = ['-']
  digit : ∀ c ∈ digits, c.isDigit = true
  digits_ne : digits ≠ []

theorem IsExponent.exponentPart_eq {mark : Char} {sign digits : List Char} (h : IsExponent mark sign digits)
    (rest : List Char) : exponentPart (mark :: (sign ++ (digits ++ rest))) =
      mark :: (sign ++ (digits ++ rest.takeWhile Char.isDigit)) := by
  have hhead : ∀ c ∈ (digits ++ rest).head?, (c == '+' || c == '-') = false := by
    intro c hc
    rw [List.head?_append_of_ne_nil _ h.digits_ne] at hc
    have hdigit := h.digit c (List.mem_of_mem_head? hc)
    have hplus : c ≠ '+' := by
      rintro rfl
      simp at hdigit
    have hminus : c ≠ '-' := by
      rintro rfl
      simp at hdigit
    simp [hplus, hminus]
  have hsign : (sign ++ (digits ++ rest)).takeWhile (fun c => c == '+' || c == '-') = sign := by
    refine (takeWhile_append_of_head _ ?_ hhead).1
    rcases h.sign_eq with rfl | rfl | rfl <;> simp
  have hlength : sign.length ≤ 1 := by rcases h.sign_eq with rfl | rfl | rfl <;> simp
  have hmark : (mark == 'e' || mark == 'E') = true := by
    rcases h.mark_eq with rfl | rfl <;> rfl
  simp only [exponentPart, hsign, List.drop_left, List.takeWhile_append_of_pos h.digit]
  simp [hmark, hlength, h.digits_ne]

theorem exists_isExponent {text : List Char} (h : exponentPart text ≠ []) :
    ∃ mark sign digits, IsExponent mark sign digits ∧ exponentPart text = mark :: (sign ++ digits) := by
  cases text with
  | nil => exact absurd rfl h
  | cons mark rest =>
    simp only [exponentPart] at h ⊢
    split
    · next hcond =>
      simp only [Bool.and_eq_true, Bool.or_eq_true, beq_iff_eq, decide_eq_true_eq,
        Bool.not_eq_true', List.isEmpty_eq_false_iff] at hcond
      obtain ⟨⟨hmark, hlength⟩, hdigits⟩ := hcond
      have hsigns : ∀ c ∈ rest.takeWhile fun c => c == '+' || c == '-', c = '+' ∨ c = '-' := by
        intro c hc
        simpa using List.mem_takeWhile_imp hc
      refine ⟨mark, _, _, ⟨hmark, ?_, fun c hc => List.mem_takeWhile_imp hc, hdigits⟩, rfl⟩
      generalize rest.takeWhile (fun c => c == '+' || c == '-') = sign at hsigns hlength
      rcases sign with _ | ⟨c, _ | ⟨d, sign⟩⟩
      · exact .inl rfl
      · exact .inr (by simpa using hsigns c)
      · simp at hlength
    · next hcond => exact absurd (if_neg hcond) h

theorem splits_number {c : Char} (more : List Char) {rest : List Char} {value : Float}
    (hword : ∀ l ∈ c :: more, isNumeral l = true) (hrest : Ends rest)
    (hvalue : numeral? (c :: more) = some value) :
    Splits (c :: (more ++ rest)) rest [.number value] := by
  have hc : isNumeral c = true := hword c (by simp)
  have hrange := toNat_of_isNumeral hc
  apply splits_lexeme more (isBlank_eq_false (by omega) (by omega))
  · have hmore : ∀ l ∈ more, isNumeral l = true := by
      intro l hl
      exact hword l (List.mem_cons_of_mem c hl)
    have hend : ∀ l ∈ rest.head?, isNumeral l = false := by
      intro l hl
      exact (hrest l hl).2
    have hrun := (takeWhile_append_of_head rest hmore hend).1
    simp [continuation, hc, hrun, exponentPart_eq_nil hrest]
  · intro start
    simp [classify, hc, hvalue]

theorem mapM_items (tokens : List Token) (fault? : Option ParseError) :
    (tokens.map .ok ++ (fault?.map .error).toList : List (Except ParseError Token)).mapM id =
      fault?.elim (.ok tokens) .error := by
  induction tokens with
  | nil => cases fault? <;> rfl
  | cons token tokens ih =>
    rw [List.map_cons, List.cons_append, List.mapM_cons, ih]
    cases fault? <;> rfl

theorem tokenize_of_lexItems {source : String} {tokens : List Token}
    (h : lexItems source = tokens.map .ok) : tokenize source = .ok tokens := by
  rw [tokenize, h]
  simpa using mapM_items tokens none

theorem tokenize_of_splits {text : List Char} {kinds : List Token.Kind} (h : Splits text [] kinds) :
    ∃ tokens, tokenize (String.ofList text) = .ok tokens ∧ tokens.map Token.kind = kinds := by
  obtain ⟨tokens, start, hkinds, hitems⟩ := h 0
  refine ⟨tokens, tokenize_of_lexItems ?_, hkinds⟩
  simpa [lexItems, String.toList_ofList, items_nil] using hitems

end EquationSolver.Formula.Lexer
