import Mathlib.Data.List.Basic
import Mathlib.Data.List.TakeWhile
import EquationSolver.Proofs.Formula.Splitting

/-!
# Splitting loses nothing

Each item that splitting a source yields takes a piece of it, with the text of that piece. The pieces
are in order, and between them there are only blanks, also behind the last one unless it is no token.
-/

namespace EquationSolver.Formula

open EquationSolver.Text (isBlank)

namespace Lexer

abbrev Item := Except ParseError Token

/-- The place of an item and its text; an error that is about no text of the source has none. -/
def piece? : Item → Option (Span × String)
  | .ok token => some (token.span, token.lexeme)
  | .error (.unexpectedChar char span) => some (span, char.toString)
  | .error (.invalidNumber lexeme span) => some (span, lexeme)
  | .error _ => none

/-! ## Lexemes -/

private theorem initial_append {run more rest : List Char} (hrun : run <+: rest)
    (hmore : more <+: rest.drop run.length) : run ++ more <+: rest := by
  obtain ⟨behind, rfl⟩ := hrun
  simpa using hmore

theorem initial_exponentPart (text : List Char) : exponentPart text <+: text := by
  cases text with
  | nil => exact List.prefix_rfl
  | cons mark rest =>
    simp only [exponentPart]
    split
    · rw [List.prefix_cons_inj]
      exact initial_append (List.takeWhile_prefix _) (List.takeWhile_prefix _)
    · exact List.nil_prefix

theorem initial_continuation (c : Char) (rest : List Char) : continuation c rest <+: rest := by
  unfold continuation
  split
  · exact initial_append (List.takeWhile_prefix _) (initial_exponentPart _)
  split
  · exact List.takeWhile_prefix _
  · exact List.nil_prefix

private theorem piece?_classify (start : Nat) (c : Char) (rest : List Char) :
    piece? (classify start c (continuation c rest)) =
      some (⟨start, start + ((continuation c rest).length + 1)⟩,
        String.ofList (c :: continuation c rest)) := by
  unfold classify
  split
  · cases numeral? (c :: continuation c rest) <;> rfl
  · next hnumeral =>
    split
    · rfl
    · next hname =>
      -- What is neither a number nor a name is a single character.
      have halpha : c.isAlpha = false := by
        simp only [Bool.or_eq_true, not_or, Bool.not_eq_true] at hname
        exact hname.1
      have hmore : continuation c rest = [] := by simp [continuation, hnumeral, halpha]
      rw [hmore]
      cases Token.Kind.ofChar? c <;> rfl

/-! ## Items -/

variable {source blanks lexeme behind : List Char} {first : Nat} {pieces : List (Span × String)}
  {whole : Prop}

/-- Whether pieces cover a source from a place on: they are no empty texts, they stand in order and
with their own texts, and only blanks are left out in front of the last one. If the source is covered
as a whole, only blanks are left behind it as well. -/
structure Covers (source : List Char) (first : Nat) (pieces : List (Span × String)) (whole : Prop) :
    Prop where
  inside : ∀ piece ∈ pieces,
    first ≤ piece.1.start ∧ piece.1.start < piece.1.stop ∧ piece.1.stop ≤ source.length
  spelled : ∀ piece ∈ pieces,
    (source.drop piece.1.start).take (piece.1.stop - piece.1.start) = piece.2.toList
  ordered : pieces.Pairwise fun piece later => piece.1.stop ≤ later.1.start
  blank : ∀ i c, source[i]? = some c → first ≤ i →
    (∀ piece ∈ pieces, i < piece.1.start ∨ piece.1.stop ≤ i) →
    (∃ piece ∈ pieces, i < piece.1.start) ∨ whole → isBlank c = true

private theorem covers_nil (h : whole → ∀ c ∈ source.drop first, isBlank c = true) :
    Covers source first [] whole where
  inside := by simp
  spelled := by simp
  ordered := .nil
  blank i c hc hle _ hbefore := by
    have hwhole : whole := by simpa using hbefore
    apply h hwhole
    rw [List.mem_iff_getElem?]
    exact ⟨i - first, by rwa [List.getElem?_drop, Nat.add_sub_cancel' hle]⟩

theorem drop_of_split (hsplit : source.drop first = blanks ++ (lexeme ++ behind)) :
    source.drop (first + blanks.length + lexeme.length) = behind := by
  rw [← List.drop_drop, ← List.drop_drop, hsplit, List.drop_left, List.drop_left]

private theorem Covers.cons (h : Covers source (first + blanks.length + lexeme.length) pieces whole)
    (hsplit : source.drop first = blanks ++ (lexeme ++ behind))
    (hblank : ∀ c ∈ blanks, isBlank c = true) (hlexeme : lexeme ≠ []) :
    Covers source first
      ((⟨first + blanks.length, first + blanks.length + lexeme.length⟩, String.ofList lexeme) ::
        pieces) whole := by
  have hpos : 0 < lexeme.length := List.length_pos_iff.mpr hlexeme
  have hlength : source.length - first = blanks.length + (lexeme.length + behind.length) := by
    simpa using congrArg List.length hsplit
  constructor
  · intro piece hpiece
    rcases List.mem_cons.mp hpiece with rfl | hpiece
    · simp only
      omega
    · have := h.inside piece hpiece
      omega
  · intro piece hpiece
    rcases List.mem_cons.mp hpiece with rfl | hpiece
    · simp only [Nat.add_sub_cancel_left, ← List.drop_drop, hsplit, List.drop_left, List.take_left,
        String.toList_ofList]
    · exact h.spelled piece hpiece
  · rw [List.pairwise_cons]
    exact ⟨fun later hlater => (h.inside later hlater).1, h.ordered⟩
  · intro i c hc hle houtside hbefore
    rw [List.forall_mem_cons] at houtside
    rcases houtside.1 with hfront | hback
    · -- In front of the piece there are the blanks.
      have hi : (source.drop first)[i - first]? = some c := by
        rwa [List.getElem?_drop, Nat.add_sub_cancel' hle]
      rw [hsplit, List.getElem?_append_left (by simp only at hfront; omega)] at hi
      exact hblank c (List.mem_of_getElem? hi)
    · apply h.blank i c hc hback houtside.2
      rcases hbefore with ⟨piece, hpiece, hlt⟩ | hwhole
      · rcases List.mem_cons.mp hpiece with rfl | hpiece
        · simp only at hlt hback
          omega
        · exact .inl ⟨piece, hpiece, hlt⟩
      · exact .inr hwhole

theorem text_eq {text : List Char} {c : Char} {rest : List Char}
    (h : text.dropWhile isBlank = c :: rest) :
    text = text.takeWhile isBlank ++
      ((c :: continuation c rest) ++ rest.drop (continuation c rest).length) := by
  have hrest := List.prefix_iff_eq_append.mp (initial_continuation c rest)
  rw [List.cons_append, hrest, ← h, List.takeWhile_append_dropWhile]

/-- What splitting yields from a place on: tokens, and at most one error behind them. They cover the
source from that place. -/
theorem covers_items (source : List Char) (first : Nat) :
    ∃ (tokens : List Token) (fault? : Option ParseError) (pieces : List (Span × String)),
      items first (source.drop first) = tokens.map .ok ++ (fault?.map .error).toList ∧
        (items first (source.drop first)).map piece? = pieces.map some ∧
        Covers source first pieces (fault? = none) := by
  generalize htext : source.drop first = text
  have hblank : ∀ c ∈ text.takeWhile isBlank, isBlank c = true := fun c hc =>
    List.mem_takeWhile_imp hc
  fun_induction items first text with
  | case1 first text hnil =>
    refine ⟨[], none, [], rfl, rfl, covers_nil fun _ => ?_⟩
    rwa [htext, ← List.takeWhile_append_dropWhile (p := isBlank) (l := text), hnil, List.append_nil]
  | case2 first text start c rest hcons more e hclass =>
    have hpiece := piece?_classify start c rest
    rw [hclass] at hpiece
    have hnone : Covers source (start + (more.length + 1)) [] (some e = none) := covers_nil (by simp)
    have hcovers := hnone.cons (htext.trans (text_eq hcons)) hblank (List.cons_ne_nil c more)
    exact ⟨[], some e, _, rfl, by simp [hpiece, start], hcovers⟩
  | case3 first text start c rest hcons more token hclass ih =>
    have hpiece := piece?_classify start c rest
    rw [hclass] at hpiece
    have hsplit := htext.trans (text_eq hcons)
    obtain ⟨tokens, fault?, pieces, hitems, htaken, hcovers⟩ :=
      ih (drop_of_split hsplit) fun c hc => List.mem_takeWhile_imp hc
    refine ⟨token :: tokens, fault?, _ :: pieces, by simp [hitems], ?_,
      hcovers.cons hsplit hblank (List.cons_ne_nil c more)⟩
    simp [hpiece, htaken, more, start]

/-- The items of a source are tokens with at most one error behind them, and they lose nothing of the
source but blanks: in order, each takes a piece of the source that is not empty and has the text of
that piece. -/
theorem lexItems_covers (source : String) :
    ∃ (tokens : List Token) (fault? : Option ParseError) (pieces : List (Span × String)),
      lexItems source = tokens.map .ok ++ (fault?.map .error).toList ∧
        (lexItems source).map piece? = pieces.map some ∧
        Covers source.toList 0 pieces (fault? = none) := by
  have hitems := covers_items source.toList 0
  rwa [List.drop_zero] at hitems

theorem lexItems_of_tokenize {source : String} {tokens : List Token}
    (h : tokenize source = .ok tokens) : lexItems source = tokens.map .ok := by
  obtain ⟨tokens', fault?, _, hitems, -, -⟩ := covers_items source.toList 0
  rw [List.drop_zero] at hitems
  rw [tokenize, lexItems, hitems, mapM_items] at h
  cases fault? with
  | none =>
    cases h
    rw [lexItems, hitems, Option.map_none, Option.toList_none, List.append_nil]
  | some fault => cases h

end Lexer

end EquationSolver.Formula
