import EquationSolver.Proofs.Formula.Relocation

/-!
# White space

Blanks between tokens mean nothing, except that they keep apart what stands on either side of them. A
lexeme ends where the characters behind it do not go on with it, and no blank goes on with anything: so
it ends in the same place when blanks are put behind it, or are exchanged for others.
-/

namespace EquationSolver.Formula

open EquationSolver.Text (isBlank)
open EquationSolver.Decimal (takeWhile_append_of_head)

namespace Lexer

/-! ## Where lexemes end -/

/-- Whether characters that stand side by side at the head of a second text do so at the head of a
first one. Blanks do not count, so that they may be new at the head of the second text. -/
def Loosened (text text' : List Char) : Prop :=
  ∀ word, word <+: text' → (∀ c ∈ word, isBlank c = false) → word <+: text

variable {text rest rest' gap more : List Char} {c : Char}

private theorem Loosened.cons (h : Loosened rest rest') (c : Char) : Loosened (c :: rest) (c :: rest') := by
  intro word hword hblank
  cases word with
  | nil => exact List.nil_prefix
  | cons first word =>
    obtain ⟨rfl, htail⟩ := List.cons_prefix_cons.mp hword
    exact List.cons_prefix_cons.mpr
      ⟨rfl, h word htail fun c hc => hblank c (List.mem_cons_of_mem _ hc)⟩

private theorem Loosened.append (h : Loosened rest rest') (front : List Char) :
    Loosened (front ++ rest) (front ++ rest') := by
  induction front with
  | nil => exact h
  | cons c front ih => exact ih.cons c

private theorem loosened_nil (text : List Char) : Loosened text [] := by
  intro word hword _
  rw [List.prefix_nil.mp hword]
  exact List.nil_prefix

private theorem loosened_of_blank (hgap : ∀ c ∈ gap, isBlank c = true) (hne : gap ≠ [])
    (text rest : List Char) : Loosened text (gap ++ rest) := by
  obtain ⟨c, gap, rfl⟩ := List.exists_cons_of_ne_nil hne
  intro word hword hblank
  cases word with
  | nil => exact List.nil_prefix
  | cons first word =>
    obtain ⟨rfl, -⟩ := List.cons_prefix_cons.mp hword
    have htrue := hgap first List.mem_cons_self
    rw [hblank first List.mem_cons_self] at htrue
    cases htrue

private theorem Loosened.takeWhile_eq {sort : Char → Bool} (h : Loosened rest rest')
    (hsort : ∀ c, sort c = true → isBlank c = false) {run : List Char}
    (hrun : (run ++ rest).takeWhile sort = run) : (run ++ rest').takeWhile sort = run := by
  have hmem : ∀ c ∈ run, sort c = true := by
    rw [← hrun]
    exact fun c hc => List.mem_takeWhile_imp hc
  have hend : rest.takeWhile sort = [] := by
    rwa [List.takeWhile_append_of_pos hmem, List.append_right_eq_self] at hrun
  refine (takeWhile_append_of_head rest' hmem fun c hc => ?_).1
  apply Bool.eq_false_iff.mpr
  intro hc'
  obtain ⟨behind, rfl⟩ := List.head?_eq_some_iff.mp hc
  obtain ⟨behind', rfl⟩ := h [c] (by simp) (by simpa using hsort c hc')
  simp [hc'] at hend

/-! ### Exponents -/

private theorem IsExponent.not_blank {mark : Char} {sign digits : List Char}
    (h : IsExponent mark sign digits) :
    ∀ c ∈ mark :: (sign ++ digits), isBlank c = false := by
  intro c hc
  rw [List.mem_cons, List.mem_append] at hc
  rcases hc with rfl | hc | hc
  · rcases h.mark_eq with rfl | rfl <;> decide
  · rcases h.sign_eq with rfl | rfl | rfl
    · cases hc
    · rw [List.mem_singleton.mp hc]
      decide
    · rw [List.mem_singleton.mp hc]
      decide
  · exact isBlank_of_isDigit (h.digit c hc)

private theorem Loosened.exponentPart_eq {part : List Char} (h : Loosened rest rest')
    (hpart : exponentPart (part ++ rest) = part) : exponentPart (part ++ rest') = part := by
  by_cases hnil : part = []
  · subst hnil
    apply Classical.byContradiction
    intro hne
    obtain ⟨mark, sign, digits, hexponent, heq⟩ := exists_isExponent hne
    -- Its characters stand side by side, so that they do so without the blanks too.
    have hprefix := initial_exponentPart ([] ++ rest')
    rw [heq] at hprefix
    obtain ⟨behind, rfl⟩ := h _ hprefix hexponent.not_blank
    rw [List.nil_append, List.cons_append, List.append_assoc, hexponent.exponentPart_eq behind] at hpart
    cases hpart
  · rw [← hpart] at hnil
    obtain ⟨mark, sign, digits, hexponent, heq⟩ := exists_isExponent hnil
    rw [hpart] at heq
    subst heq
    have hsame : mark :: (sign ++ (digits ++ rest.takeWhile Char.isDigit)) = mark :: (sign ++ digits) := by
      rw [← hexponent.exponentPart_eq rest]
      simpa using hpart
    have hrest : (digits ++ rest).takeWhile Char.isDigit = digits := by
      rw [List.takeWhile_append_of_pos hexponent.digit]
      simpa using hsame
    have hrest' := h.takeWhile_eq (fun c => isBlank_of_isDigit) hrest
    rw [List.takeWhile_append_of_pos hexponent.digit] at hrest'
    simpa [hrest'] using hexponent.exponentPart_eq rest'

/-- What belongs to a lexeme does so when blanks are put behind it. -/
theorem Loosened.continuation_eq (h : Loosened rest rest')
    (hmore : continuation c (more ++ rest) = more) : continuation c (more ++ rest') = more := by
  unfold continuation at hmore ⊢
  by_cases hnumeral : isNumeral c = true
  · simp only [hnumeral, if_true] at hmore ⊢
    generalize hrun : (more ++ rest).takeWhile isNumeral = run at hmore
    obtain ⟨part, rfl⟩ : ∃ part, more = run ++ part := ⟨_, hmore.symm⟩
    rw [List.append_assoc] at hrun
    rw [List.append_assoc, List.drop_left, List.append_cancel_left_eq] at hmore
    have hrun' := (h.append part).takeWhile_eq (fun c => isBlank_of_isNumeral) hrun
    rw [List.append_assoc, hrun', List.drop_left, h.exponentPart_eq hmore]
  by_cases halpha : c.isAlpha = true
  · simp only [hnumeral, halpha, Bool.false_eq_true, if_true, if_false] at hmore ⊢
    exact h.takeWhile_eq (fun c => isBlank_of_isAlpha) hmore
  · simpa [hnumeral, halpha] using hmore

/-! ## Splitting step by step -/

end Lexer

def Token.startingAt (token : Token) (start : Nat) : Token :=
  { token with span := ⟨start, start + token.lexeme.length⟩ }

namespace Lexer

private theorem classify_startingAt {start : Nat} {token : Token} (h : classify start c more = .ok token) :
    token.span = ⟨start, start + (more.length + 1)⟩ ∧ token.lexeme = String.ofList (c :: more) ∧
      ∀ start', classify start' c more = .ok (token.startingAt start') := by
  unfold classify at h ⊢
  split at h
  · next hnumeral =>
    split at h
    · next value hvalue =>
      cases h
      exact ⟨rfl, rfl, fun start' => by simp [hnumeral, Token.startingAt, Nat.add_comm]⟩
    · cases h
  · next hnumeral =>
    split at h
    · next hname =>
      cases h
      exact ⟨rfl, rfl, fun start' => by simp [hnumeral, hname, Token.startingAt, Nat.add_comm]⟩
    · next hname =>
      split at h
      · next kind hkind =>
        cases h
        exact ⟨rfl, rfl, fun start' => by simp [hnumeral, hname, Token.startingAt, Nat.add_comm]⟩
      · cases h

/-- How a text is split from a place on into tokens: step by step, with the blanks and the lexeme that
each step passes over. -/
inductive Split : Nat → List Char → List Token → Prop
  | done {start : Nat} {text : List Char} (blank : ∀ c ∈ text, isBlank c = true) : Split start text []
  | step {start : Nat} {blanks more behind : List Char} {c : Char} {token : Token}
      {tokens : List Token} (blank : ∀ c ∈ blanks, isBlank c = true) (first : isBlank c = false)
      (munch : continuation c (more ++ behind) = more)
      (classified : classify (start + blanks.length) c more = .ok token)
      (rest : Split (start + blanks.length + (more.length + 1)) behind tokens) :
      Split start (blanks ++ (c :: (more ++ behind))) (token :: tokens)

private theorem split_of_items (start : Nat) (text : List Char) :
    ∀ tokens, items start text = tokens.map .ok → Split start text tokens := by
  fun_induction items start text with
  | case1 start text hnil =>
    intro tokens h
    obtain rfl : tokens = [] := by simpa using h.symm
    exact .done (List.dropWhile_eq_nil_iff.mp hnil)
  | case2 start text first c rest hcons more e hclass =>
    intro tokens h
    cases tokens <;> simp at h
  | case3 start text first c rest hcons more token hclass ih =>
    intro tokens h
    obtain ⟨token', tokens, rfl, htoken, htokens⟩ := List.map_eq_cons_iff.mp h.symm
    cases htoken
    have hfirst : isBlank c = false := by
      have hhead := List.head?_dropWhile_not isBlank text
      simpa [hcons] using hhead
    have hmunch : continuation c (more ++ rest.drop more.length) = more := by
      rw [List.prefix_iff_eq_append.mp (initial_continuation c rest)]
    rw [text_eq hcons]
    exact .step (fun c hc => List.mem_takeWhile_imp hc) hfirst hmunch hclass (ih tokens htokens.symm)

private theorem Split.items_eq {start : Nat} {text : List Char} {tokens : List Token}
    (h : Split start text tokens) : items start text = tokens.map .ok := by
  induction h with
  | done blank =>
    rw [items]
    split
    · rfl
    · next hcons =>
      rw [List.dropWhile_eq_nil_iff.mpr blank] at hcons
      cases hcons
  | @step start blanks more behind c token tokens blank first munch classified rest ih =>
    have hrun := takeWhile_append_of_head (c :: (more ++ behind)) blank (by simpa using first)
    rw [items, hrun.1]
    split
    · next hnil =>
      rw [hrun.2] at hnil
      cases hnil
    · next c' rest' hcons =>
      rw [hrun.2] at hcons
      cases hcons
      simp [munch, classified, ih]

/-- The tokens of a source are those that it is split into step by step. -/
theorem tokenize_eq_ok_iff {source : String} {tokens : List Token} :
    tokenize source = .ok tokens ↔ Split 0 source.toList tokens := by
  constructor
  · intro h
    exact split_of_items 0 source.toList tokens (lexItems_of_tokenize h)
  · intro h
    exact tokenize_of_lexItems h.items_eq

private theorem Split.lt_start {start : Nat} {text : List Char} {token : Token} {tokens : List Token}
    (h : Split start text (token :: tokens)) (hc : c ∈ text.head?) (hblank : isBlank c = true) :
    start < token.span.start := by
  cases h with
  | @step _ blanks _ _ _ _ _ _ first _ classified _ =>
    rw [(classify_startingAt classified).1]
    cases blanks with
    | nil =>
      cases hc
      rw [hblank] at first
      cases first
    | cons _ blanks =>
      simp only [List.length_cons]
      omega

/-! ## Other blanks -/

/-- The lexemes of tokens with gaps around them: one in front of each lexeme, and one behind the last. -/
def spread (gap : Nat → List Char) : List Token → List Char
  | [] => gap 0
  | token :: tokens => gap 0 ++ (token.lexeme.toList ++ spread (fun i => gap (i + 1)) tokens)

/-- Tokens at the places that their lexemes have among gaps, in a text that begins at `start`: each
lexeme stands behind those in front of it with their gaps. -/
def placed (start : Nat) (gap : Nat → List Char) (tokens : List Token) : List Token :=
  tokens.mapIdx fun i token => token.startingAt (start + (spread gap (tokens.take i)).length)

private theorem placed_cons (start : Nat) (gap : Nat → List Char) (token : Token) (tokens : List Token) :
    placed start gap (token :: tokens) = token.startingAt (start + (gap 0).length) ::
      placed (start + (gap 0).length + token.lexeme.length) (fun i => gap (i + 1)) tokens := by
  simp [placed, spread, List.mapIdx_cons, Nat.add_assoc, String.length_toList]

private theorem kind_placed (start : Nat) (gap : Nat → List Char) (tokens : List Token) :
    (placed start gap tokens).map Token.kind = tokens.map Token.kind := by
  induction tokens generalizing start gap with
  | nil => rfl
  | cons token tokens ih => simp [placed_cons, ih, Token.startingAt]

private theorem lexeme_placed (start : Nat) (gap : Nat → List Char) (tokens : List Token) :
    (placed start gap tokens).map Token.lexeme = tokens.map Token.lexeme := by
  induction tokens generalizing start gap with
  | nil => rfl
  | cons token tokens ih => simp [placed_cons, ih, Token.startingAt]

def BlankBetween (source : List Char) (left right : Token) : Prop :=
  ∃ i c, left.span.stop ≤ i ∧ i < right.span.start ∧ source[i]? = some c ∧ isBlank c = true

/-- Whether gaps are blanks that keep apart what a source keeps apart by blanks. -/
structure Separates (source : List Char) (gap : Nat → List Char) (tokens : List Token) : Prop where
  blank : ∀ i ≤ tokens.length, ∀ c ∈ gap i, isBlank c = true
  kept : ∀ i left right, tokens[i]? = some left → tokens[i + 1]? = some right →
    BlankBetween source left right → gap (i + 1) ≠ []

private theorem Separates.tail {source : List Char} {gap : Nat → List Char} {token : Token}
    {tokens : List Token} (h : Separates source gap (token :: tokens)) :
    Separates source (fun i => gap (i + 1)) tokens where
  blank i hi := h.blank (i + 1) (Nat.succ_le_succ hi)
  kept i left right hleft hright := h.kept (i + 1) left right hleft hright

/-- Whether the first of some tokens has blanks in front of it if a text has any at its head. -/
def KeepsFirst (text : List Char) (gap : Nat → List Char) (tokens : List Token) : Prop :=
  tokens ≠ [] → ∀ c ∈ text.head?, isBlank c = true → gap 0 ≠ []

private theorem Separates.keepsFirst {source behind : List Char} {gap : Nat → List Char} {token : Token}
    {tokens : List Token} (h : Separates source gap (token :: tokens))
    (hsplit : Split token.span.stop behind tokens) (hbehind : source.drop token.span.stop = behind) :
    KeepsFirst behind (fun i => gap (i + 1)) tokens := by
  intro hne b hb hblank
  obtain ⟨right, tokens, rfl⟩ := List.exists_cons_of_ne_nil hne
  have hsome : source[token.span.stop]? = some b := by
    rw [← hb, ← hbehind, List.head?_drop]
  exact h.kept 0 token right rfl rfl
    ⟨token.span.stop, b, Nat.le_refl _, hsplit.lt_start hb hblank, hsome, hblank⟩

/-- A text that is split is split into the same tokens with other blanks. If its first token still has
blanks in front of it where it had some, then also what stands in front of the text ends as before. -/
theorem Split.respaced {source : List Char} {start : Nat} {text : List Char} {tokens : List Token}
    (h : Split start text tokens) (hsource : source.drop start = text) {gap : Nat → List Char}
    (hgap : Separates source gap tokens) (start' : Nat) :
    Split start' (spread gap tokens) (placed start' gap tokens) ∧
      (KeepsFirst text gap tokens → Loosened text (spread gap tokens)) := by
  induction h generalizing gap start' with
  | @done start text blank =>
    have hblank := hgap.blank 0 (Nat.zero_le _)
    refine ⟨.done hblank, fun _ => ?_⟩
    by_cases hnil : gap 0 = []
    · rw [spread, hnil]
      exact loosened_nil text
    · simpa [spread] using loosened_of_blank hblank hnil text []
  | @step start blanks more behind c token tokens blank first munch classified rest ih =>
    obtain ⟨hspan, hlexeme, hstarting⟩ := classify_startingAt classified
    have hblank := hgap.blank 0 (Nat.zero_le _)
    have hstop : token.span.stop = start + blanks.length + (more.length + 1) := by rw [hspan]
    have hbehind : source.drop token.span.stop = behind := by
      rw [hstop]
      exact drop_of_split (show source.drop start = blanks ++ ((c :: more) ++ behind) from hsource)
    rw [← hstop] at rest ih
    obtain ⟨hsplit, hloose⟩ := ih hbehind hgap.tail (start' + (gap 0).length + (more.length + 1))
    have hbehind' := hloose (hgap.keepsFirst rest hbehind)
    have hspread : spread gap (token :: tokens) =
        gap 0 ++ (c :: (more ++ spread (fun i => gap (i + 1)) tokens)) := by
      simp [spread, hlexeme]
    have hlength : token.lexeme.length = more.length + 1 := by
      rw [hlexeme, String.length_ofList, List.length_cons]
    rw [hspread, placed_cons, hlength]
    refine ⟨.step hblank first (hbehind'.continuation_eq munch) (hstarting _) hsplit, ?_⟩
    intro hfirst
    by_cases hnil : gap 0 = []
    · cases blanks with
      | nil =>
        rw [hnil]
        exact (hbehind'.append more).cons c
      | cons b blanks =>
        exact absurd hnil (hfirst (List.cons_ne_nil _ _) b rfl (blank b List.mem_cons_self))
    · exact loosened_of_blank hblank hnil _ _

end Lexer

open Lexer

/-- Blanks between the tokens of a source mean nothing: the same lexemes with other blanks among them
are split into the same tokens, each in its new place, as long as what was kept apart by blanks still
is. So they are read as the same tree, or refused with the same error about the same token. -/
theorem parse_respaced {source : String} {tokens : List Token} {gap : Nat → List Char}
    (htokens : tokenize source = .ok tokens) (hgap : Separates source.toList gap tokens) :
    let text := String.ofList (spread gap tokens)
    let moved := placed 0 gap tokens
    tokenize text = .ok moved ∧ moved.map Token.kind = tokens.map Token.kind ∧
      moved.map Token.lexeme = tokens.map Token.lexeme ∧
      (∀ t, parse source = .ok t → parse text = .ok t) ∧
      ∀ e, parse source = .error e → ∃ e', parse text = .error e' ∧ SameFault tokens moved e e' := by
  intro text moved
  have hsplit := ((tokenize_eq_ok_iff.mp htokens).respaced List.drop_zero hgap 0).1
  rw [← String.toList_ofList (l := spread gap tokens)] at hsplit
  have htext : tokenize text = .ok moved := tokenize_eq_ok_iff.mpr hsplit
  have hkind := kind_placed 0 gap tokens
  have hlexeme := lexeme_placed 0 gap tokens
  rw [parse_eq_of_tokenize htokens, parse_eq_of_tokenize htext]
  exact ⟨htext, hkind, hlexeme, parseTokens_alike hkind hlexeme⟩

/-- Blanks keep `sin` apart from `π`, so that some must stay there, and `π` and `x` may be moved apart.
The function lacks its argument all the same. -/
theorem parse_respaced_sin :
    let name (text : String) (start stop : Nat) : Token := ⟨.name text, ⟨start, stop⟩, text⟩
    let tokens := [name "sin" 0 3, name "π" 4 5, name "x" 5 6]
    let gap (i : Nat) : List Char := [[' '], ['\t'], [' ']].getD i []
    tokenize "sin πx" = .ok tokens ∧ Separates "sin πx".toList gap tokens ∧
      tokenize " sin\tπ x" = .ok [name "sin" 1 4, name "π" 5 6, name "x" 7 8] ∧
      parse "sin πx" = .error (.missingArgument "sin" ⟨0, 3⟩) ∧
      parse " sin\tπ x" = .error (.missingArgument "sin" ⟨1, 4⟩) := by
  intro name tokens gap
  have htokens : tokenize "sin πx" = .ok tokens := by
    have hsource : "sin πx".toList =
        [] ++ ('s' :: (['i', 'n'] ++ ([' '] ++ ('π' :: ([] ++ ([] ++ ('x' :: ([] ++ [])))))))) := rfl
    have hblank (text : List Char) (h : text.all isBlank = true) : ∀ c ∈ text, isBlank c = true :=
      List.all_eq_true.mp h
    rw [tokenize_eq_ok_iff, hsource]
    exact .step (hblank _ rfl) (by decide) (by decide) rfl <|
      .step (hblank _ (by decide)) (by decide) (by decide) rfl <|
      .step (hblank _ rfl) (by decide) (by decide) rfl <| .done (hblank _ rfl)
  have hgap : Separates "sin πx".toList gap tokens := by
    have hblank : ∀ i ≤ 3, (gap i).all isBlank = true := by decide
    refine ⟨fun i hi => List.all_eq_true.mp (hblank i hi), ?_⟩
    intro i left right hleft hright hbetween
    match i with
    | 0 => decide
    | 1 =>
      cases hleft
      cases hright
      obtain ⟨j, c, hstart, hstop, -⟩ := hbetween
      exact absurd hstop (Nat.not_lt.mpr hstart)
    | i + 2 => cases hright
  have hparse : parse "sin πx" = .error (.missingArgument "sin" ⟨0, 3⟩) := by
    rw [parse_eq_of_tokenize htokens]
    rfl
  have htext : String.ofList (spread gap tokens) = " sin\tπ x" := by decide
  have hplaced : placed 0 gap tokens = [name "sin" 1 4, name "π" 5 6, name "x" 7 8] := by
    simp only [tokens, gap, name]
    rfl
  have h := parse_respaced htokens hgap
  rw [htext, hplaced] at h
  refine ⟨htokens, hgap, h.1, hparse, ?_⟩
  rw [parse_eq_of_tokenize h.1]
  rfl

end EquationSolver.Formula
