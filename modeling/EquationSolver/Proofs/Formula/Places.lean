import EquationSolver.Proofs.Formula.Coverage
import EquationSolver.Proofs.Formula.Refusal

/-!
# The places of errors

Every error points at the text it names. An error of the parser is about a token that it has in view,
which is the token in front of its cursor or one behind; what the parser has in view only shrinks while
it reads, so that the token is one of the formula. A token, and what splitting refuses, takes a piece
of the source with the text of that piece.
-/

namespace EquationSolver.Formula

open Grammar Lexer EquationSolver.Formula.Parser
open EquationSolver.Text (isBlank)

/-! ## Errors and tokens -/

/-- Whether an error of the parser is about one of some tokens: it has the place of the token and says
what the token is. An operand is missed behind the last of them. -/
inductive Blames (ts : List Token) : ParseError → Prop
  | unknownName {token : Token} {name : String} (mem : token ∈ ts) (kind_eq : token.kind = .name name) :
      Blames ts (.unknownName name token.span)
  | missingArgument {token : Token} {name : String} (mem : token ∈ ts)
      (kind_eq : token.kind = .name name) : Blames ts (.missingArgument name token.span)
  | unmatchedOpen {token : Token} (mem : token ∈ ts) (kind_eq : token.kind = .openParen) :
      Blames ts (.unmatchedOpen token.span)
  | unmatchedClose {token : Token} (mem : token ∈ ts) (kind_eq : token.kind = .closeParen) :
      Blames ts (.unmatchedClose token.span)
  | unexpectedToken {token : Token} (mem : token ∈ ts) :
      Blames ts (.unexpectedToken token.lexeme token.span)
  | unexpectedEnd {token : Token} (last : ts.getLast? = some token) :
      Blames ts (.unexpectedEnd token.lexeme)
  | tooDeep {token : Token} (mem : token ∈ ts) : Blames ts (.tooDeep maxDepth token.span)

private theorem Blames.of_suffix {us ts : List Token} {e : ParseError} (h : Blames us e)
    (hsuffix : us <:+ ts) :
    Blames ts e := by
  cases h with
  | unknownName mem kind_eq => exact .unknownName (hsuffix.mem mem) kind_eq
  | missingArgument mem kind_eq => exact .missingArgument (hsuffix.mem mem) kind_eq
  | unmatchedOpen mem kind_eq => exact .unmatchedOpen (hsuffix.mem mem) kind_eq
  | unmatchedClose mem kind_eq => exact .unmatchedClose (hsuffix.mem mem) kind_eq
  | unexpectedToken mem => exact .unexpectedToken (hsuffix.mem mem)
  | unexpectedEnd last =>
    obtain ⟨front, rfl⟩ := hsuffix
    exact .unexpectedEnd (by simp [List.getLast?_append, last])
  | tooDeep mem => exact .tooDeep (hsuffix.mem mem)

namespace Parser

def Cursor.view (here : Cursor) : List Token :=
  here.previous.toList ++ here.rest

variable {here after : Cursor} {ts : List Token} {e : ParseError} {inner : Nat → Cursor → Result}

private theorem rest_suffix_view (here : Cursor) : here.rest <:+ here.view :=
  List.suffix_append _ _

private theorem view_ne_nil (token : Token) (rest : List Token) : Cursor.view ⟨some token, rest⟩ ≠ [] :=
  List.cons_ne_nil token rest

private theorem Passes.view_suffix (h : Passes here ts after) : after.view <:+ here.view := by
  have hlast : ts.getLast?.toList <:+ ts := by
    rcases List.eq_nil_or_concat ts with rfl | ⟨us, last, rfl⟩
    · exact List.suffix_rfl
    · simp
  have hview : after.view <:+ here.rest := by
    rw [h.rest, Cursor.view, h.previous]
    exact (List.suffix_append_inj_of_length_eq rfl).mpr ⟨hlast, rfl⟩
  exact hview.trans (rest_suffix_view here)

private theorem Passes.view_ne_nil (h : Passes here ts after) (hne : ts ≠ []) : after.view ≠ [] := by
  rw [Cursor.view, h.previous, List.getLast?_eq_some_getLast hne]
  exact List.cons_ne_nil _ _

def Blaming (inner : Nat → Cursor → Result) : Prop :=
  ∀ ⦃least here e⦄, here.view ≠ [] → inner least here = .error e → Blames here.view e

private theorem close_blames {opened : Token} {tree : Node} (hopened : opened ∈ ts)
    (hkind : opened.kind = .openParen) (hsuffix : here.view <:+ ts)
    (h : close opened tree here = .error e) : Blames ts e := by
  obtain ⟨last, _ | ⟨token, rest⟩⟩ := here
  · cases h
    exact .unmatchedOpen hopened hkind
  · simp only [close] at h
    split at h
    · cases h
    · cases h
      exact .unexpectedToken (hsuffix.mem (by simp [Cursor.view]))

private theorem group_blames {opened : Token} {rest : List Token} (hs : Sound inner) (hb : Blaming inner)
    (hkind : opened.kind = .openParen)
    (h : group inner opened ⟨some opened, rest⟩ = .error e) : Blames (opened :: rest) e := by
  rcases group_cases inner opened ⟨some opened, rest⟩ with ⟨closing, behind, hrest, -, hgroup⟩ | hgroup
  · cases h.symm.trans hgroup
    obtain rfl : rest = closing :: behind := hrest
    exact .unexpectedToken (by simp)
  · rcases bind_eq_error (hgroup.symm.trans h) with hread | ⟨⟨tree, after⟩, hread, hclose⟩
    · exact hb (view_ne_nil opened rest) hread
    · obtain ⟨ts, hpass, -⟩ := hs hread
      exact close_blames List.mem_cons_self hkind hpass.view_suffix hclose

private theorem named_blames {token : Token} {name : String} {rest : List Token} (hs : Sound inner)
    (hb : Blaming inner) (hkind : token.kind = .name name)
    (h : named inner name token.span ⟨some token, rest⟩ = .error e) : Blames (token :: rest) e := by
  rcases named_cases name with ⟨tree, hname⟩ | hname | ⟨function, hname⟩
  · cases (hname ..).symm.trans h
  · cases (hname ..).symm.trans h
    exact .unknownName List.mem_cons_self hkind
  · obtain ⟨hcall, hmissing⟩ := hname inner token.span (some token)
    by_cases hopens : ∃ opening ∈ rest.head?, opening.kind = .openParen
    · obtain ⟨opening, hhead, hopening⟩ := hopens
      obtain ⟨behind, rfl⟩ := List.head?_eq_some_iff.mp hhead
      rw [hcall opening behind hopening] at h
      rcases bind_eq_error h with hgroup | ⟨⟨argument, after⟩, -, hnext⟩
      · exact (group_blames hs hb hopening hgroup).of_suffix (List.suffix_cons token _)
      · cases hnext
    · rw [hmissing rest fun opening hhead hopening => hopens ⟨opening, hhead, hopening⟩] at h
      cases h
      exact .missingArgument List.mem_cons_self hkind

private theorem operand_blames (hs : Sound inner) (hb : Blaming inner) (hview : here.view ≠ [])
    (h : operand inner here = .error e) : Blames here.view e := by
  obtain ⟨last, _ | ⟨token, rest⟩⟩ := here
  · obtain ⟨token, rfl⟩ : ∃ token, last = some token := by
      cases last with
      | none => exact absurd rfl hview
      | some token => exact ⟨token, rfl⟩
    cases h
    exact .unexpectedEnd rfl
  refine Blames.of_suffix ?_ (rest_suffix_view ⟨last, token :: rest⟩)
  cases hk : token.kind with
  | number value =>
    simp only [operand, hk] at h
    cases h
  | name name =>
    simp only [operand, hk] at h
    exact named_blames hs hb hk h
  | openParen =>
    simp only [operand, hk] at h
    exact group_blames hs hb hk h
  | minus | plus =>
    simp only [operand, operand.signed, hk] at h
    rcases bind_eq_error h with hread | ⟨⟨tree, after⟩, -, hsign⟩
    · exact hb (view_ne_nil token rest) hread
    · cases hsign
  | star | slash | caret | closeParen =>
    simp only [operand, hk] at h
    cases h
    exact .unexpectedToken List.mem_cons_self

private theorem tooDeep_blames (hview : here.view ≠ []) : Blames here.view (tooDeep here) := by
  obtain ⟨_ | token, _ | ⟨next, rest⟩⟩ := here
  · exact absurd rfl hview
  · exact .tooDeep List.mem_cons_self
  · exact .tooDeep List.mem_cons_self
  · exact .tooDeep (by simp [Cursor.view])

def ChainBlaming (budget : Nat) : Prop :=
  ∀ ⦃least left here e⦄, here.view ≠ [] → chain budget least left here = .error e →
    Blames here.view e

private theorem chain_blames {budget : Nat}
    (ih : ∀ smaller, budget = smaller + 1 → Blaming (expression smaller) ∧ ChainBlaming smaller) :
    ChainBlaming budget := by
  intro least left here e hview h
  cases ho : here.operator? with
  | none => cases budget <;> simp [chain, ho] at h
  | some next =>
    obtain ⟨op, spelled⟩ := next
    by_cases hlt : op.strength < least
    · cases budget <;> simp [chain, ho, hlt] at h
    cases budget with
    | zero =>
      simp only [chain, ho, if_neg hlt] at h
      cases h
      exact tooDeep_blames hview
    | succ budget =>
      simp only [chain, ho, if_neg hlt] at h
      obtain ⟨token, rest, hrest, -⟩ := operator?_eq_some ho
      -- A spelled operator is passed over, and then it is the token in front.
      have hnext : (if spelled then here.skip else here).view <:+ here.view ∧
          (if spelled then here.skip else here).view ≠ [] := by
        cases spelled with
        | false => exact ⟨List.suffix_rfl, hview⟩
        | true =>
          have hskip : here.skip.view = here.rest := by simp [Cursor.skip, Cursor.view, hrest]
          exact ⟨hskip ▸ rest_suffix_view here, by simp [hskip, hrest]⟩
      obtain ⟨hexpression, hchain⟩ := ih budget rfl
      rcases bind_eq_error h with hread | ⟨⟨right, after⟩, hread, hbehind⟩
      · exact (hexpression hnext.2 hread).of_suffix hnext.1
      · obtain ⟨ts, hpass, ⟨d⟩, -⟩ := (expression_sound budget).1 hread
        exact (hchain (hpass.view_ne_nil d.ne_nil) hbehind).of_suffix
          (hpass.view_suffix.trans hnext.1)

/-- Within any budget, the errors of the parser are about the tokens that it has in view. -/
theorem expression_blames (budget : Nat) : Blaming (expression budget) ∧ ChainBlaming budget := by
  induction budget with
  | zero =>
    refine ⟨?_, chain_blames (by simp)⟩
    intro least here e hview h
    cases h
    exact tooDeep_blames hview
  | succ budget ih =>
    refine ⟨?_, chain_blames (by rintro smaller ⟨⟩; exact ih)⟩
    intro least here e hview h
    have hs := (expression_sound budget).1
    rcases bind_eq_error h with hleft | ⟨⟨left, after⟩, hleft, hchain⟩
    · exact operand_blames hs ih.1 hview hleft
    · obtain ⟨p, ts, hpass, ⟨d⟩, -⟩ := operand_sound hs hleft
      exact (ih.2 (hpass.view_ne_nil d.ne_nil) hchain).of_suffix hpass.view_suffix

end Parser

/-- The errors of the parser are about tokens of the formula, which has some. -/
theorem blames_of_parseTokens {tokens : List Token} {e : ParseError} (hne : tokens ≠ [])
    (h : parseTokens tokens = .error e) : Blames tokens e := by
  simp only [parseTokens, List.isEmpty_eq_false_iff.mpr hne, Bool.false_eq_true, if_false] at h
  rcases bind_eq_error h with hread | ⟨⟨tree, after⟩, hread, htrailing⟩
  · have hview : Cursor.view ⟨none, tokens⟩ ≠ [] := hne
    exact (expression_blames maxDepth).1 hview hread
  · obtain ⟨ts, hpass, -⟩ := (expression_sound maxDepth).1 hread
    have hrest : after.rest <:+ tokens := (rest_suffix_view after).trans hpass.view_suffix
    cases hafter : after.rest with
    | nil => simp [hafter] at htrailing
    | cons token rest =>
      simp only [hafter] at htrailing hrest
      cases htrailing
      split
      · next hcloses =>
        exact .unmatchedClose (hrest.mem List.mem_cons_self) (closes_iff.mp hcloses)
      · exact .unexpectedToken (hrest.mem List.mem_cons_self)

/-! ## Tokens and the source -/

def textAt (source : String) (span : Span) : String :=
  String.ofList ((source.toList.drop span.start).take (span.stop - span.start))

/-- Whether a place is one of a source, not empty, and has a text. -/
structure Marks (source : String) (span : Span) (text : String) : Prop where
  nonempty : span.start < span.stop
  inside : span.stop ≤ source.length
  text_eq : textAt source span = text

private theorem Marks.text_ne {source text : String} {span : Span} (h : Marks source span text) :
    text ≠ "" := by
  rintro rfl
  have hlength := congrArg (fun text => text.toList.length) h.text_eq
  have hlt := h.nonempty
  have hle := h.inside
  rw [← String.length_toList] at hle
  simp [textAt] at hlength
  omega

/-- Whether the place of an error, if it has one, has the text that the error names. An error without
a place is about the end of the source, or about a source without tokens. -/
def PointsAt (source : String) : ParseError → Prop
  | .empty => ∀ c ∈ source.toList, isBlank c = true
  | .unexpectedChar char span => Marks source span char.toString
  | .invalidNumber lexeme span | .unexpectedToken lexeme span => Marks source span lexeme
  | .unknownName name span | .missingArgument name span => Marks source span name
  | .unmatchedOpen span => Marks source span "("
  | .unmatchedClose span => Marks source span ")"
  | .tooDeep _ span => ∃ token, .ok token ∈ lexItems source ∧ token.span = span ∧
      Marks source span token.lexeme
  | .unexpectedEnd after => after ≠ "" ∧ ∃ tokens last, tokenize source = .ok (tokens ++ [last]) ∧
      last.lexeme = after ∧ Marks source last.span after ∧
        ∀ c ∈ source.toList.drop last.span.stop, isBlank c = true

namespace Lexer

variable {source : String} {pieces : List (Span × String)} {whole : Prop} {tokens : List Token}

private theorem Covers.marks (h : Covers source.toList 0 pieces whole) {piece : Span × String}
    (hpiece : piece ∈ pieces) : Marks source piece.1 piece.2 := by
  obtain ⟨-, hlt, hle⟩ := h.inside piece hpiece
  rw [String.length_toList] at hle
  refine ⟨hlt, hle, ?_⟩
  rw [textAt, h.spelled piece hpiece, String.ofList_toList]

private theorem lexeme_of_classify {start : Nat} {c : Char} {rest : List Char} {token : Token}
    (h : classify start c (continuation c rest) = .ok token) :
    (∃ value, token.kind = .number value) ∨ token.lexeme = token.kind.text := by
  unfold classify at h
  split at h
  · split at h
    · cases h
      exact .inl ⟨_, rfl⟩
    · cases h
  · next hnumeral =>
    split at h
    · cases h
      exact .inr rfl
    · next hname =>
      simp only [Bool.or_eq_true, not_or] at hname
      split at h
      · next kind hkind =>
        cases h
        right
        simp only [continuation, hnumeral, hname.1, Bool.false_eq_true, if_false]
        exact (Token.Kind.text_of_ofChar? hkind).symm
      · cases h

private theorem lexeme_of_mem_items {start : Nat} {text : List Char} {token : Token}
    (h : .ok token ∈ items start text) :
    (∃ value, token.kind = .number value) ∨ token.lexeme = token.kind.text := by
  fun_induction items start text with
  | case1 => simp at h
  | case2 => simp at h
  | case3 first text start c rest _ more token' hclass ih =>
    rcases List.mem_cons.mp h with heq | hmem
    · cases heq
      exact lexeme_of_classify hclass
    · exact ih hmem

private theorem exists_split (source : String) :
    ∃ (tokens : List Token) (fault? : Option ParseError) (pieces : List (Span × String)),
      tokenize source = fault?.elim (.ok tokens) .error ∧
      (∀ token ∈ tokens, .ok token ∈ lexItems source ∧ (token.span, token.lexeme) ∈ pieces) ∧
      (∀ fault ∈ fault?, ∃ piece ∈ pieces, piece? (.error fault) = some piece) ∧
      (fault? = none → pieces = tokens.map fun token => (token.span, token.lexeme)) ∧
      Covers source.toList 0 pieces (fault? = none) := by
  obtain ⟨tokens, fault?, pieces, hitems, htaken, hcovers⟩ := covers_items source.toList 0
  rw [List.drop_zero] at hitems htaken
  have hpiece : ∀ item ∈ items 0 source.toList, ∃ piece ∈ pieces, piece? item = some piece := by
    intro item hitem
    have hmem : piece? item ∈ pieces.map some := htaken ▸ List.mem_map_of_mem hitem
    obtain ⟨piece, hpiece, heq⟩ := List.mem_map.mp hmem
    exact ⟨piece, hpiece, heq.symm⟩
  refine ⟨tokens, fault?, pieces, ?_, ?_, ?_, ?_, hcovers⟩
  · rw [tokenize, lexItems, hitems, mapM_items]
  · intro token htoken
    have hitem : .ok token ∈ items 0 source.toList := by simp [hitems, htoken]
    obtain ⟨piece, hpiece, heq⟩ := hpiece _ hitem
    cases heq
    exact ⟨hitem, hpiece⟩
  · rintro fault rfl
    exact hpiece _ (by simp [hitems])
  · rintro rfl
    rw [hitems] at htaken
    apply List.map_injective_iff.mpr fun _ _ => Option.some.inj
    rw [← htaken]
    simp [piece?]

end Lexer

open Lexer

variable {source : String} {e : ParseError}

private theorem pointsAt_of_piece {piece : Span × String} (h : piece? (.error e) = some piece)
    (hmarks : Marks source piece.1 piece.2) : PointsAt source e := by
  cases e with
  | unexpectedChar | invalidNumber =>
    cases h
    exact hmarks
  | _ => cases h

private theorem blank_behind {tokens : List Token} {last : Token} {pieces : List (Span × String)}
    (hcovers : Covers source.toList 0 pieces True)
    (hpieces : pieces = (tokens ++ [last]).map fun token => (token.span, token.lexeme)) :
    ∀ c ∈ source.toList.drop last.span.stop, isBlank c = true := by
  intro c hc
  obtain ⟨i, hi⟩ := List.mem_iff_getElem?.mp hc
  rw [List.getElem?_drop] at hi
  refine hcovers.blank _ c hi (Nat.zero_le _) (fun piece hpiece => .inr ?_) (.inr trivial)
  have hordered := hcovers.ordered
  simp only [hpieces, List.map_append, List.map_cons, List.map_nil, List.pairwise_append] at hordered
  simp only [hpieces, List.map_append, List.map_cons, List.map_nil, List.mem_append,
    List.mem_singleton] at hpiece
  rcases hpiece with hbefore | rfl
  · have hle := hordered.2.2 piece hbefore _ (List.mem_singleton_self _)
    have hpos := (hcovers.inside (last.span, last.lexeme) (by simp [hpieces])).2.1
    simp only at hle hpos
    omega
  · exact Nat.le_add_right _ _

private theorem pointsAt_of_blames {tokens : List Token} {pieces : List (Span × String)}
    (hsplit : tokenize source = .ok tokens)
    (htokens : ∀ token ∈ tokens, .ok token ∈ lexItems source ∧ (token.span, token.lexeme) ∈ pieces)
    (hpieces : pieces = tokens.map fun token => (token.span, token.lexeme))
    (hcovers : Covers source.toList 0 pieces True) (h : Blames tokens e) : PointsAt source e := by
  have hmarks : ∀ token ∈ tokens, Marks source token.span token.lexeme := fun token htoken =>
    hcovers.marks (htokens token htoken).2
  have hkind : ∀ token ∈ tokens, (∀ value, token.kind ≠ .number value) →
      Marks source token.span token.kind.text := by
    intro token htoken hnumber
    rcases lexeme_of_mem_items (htokens token htoken).1 with ⟨value, hvalue⟩ | hlexeme
    · exact absurd hvalue (hnumber value)
    · exact hlexeme ▸ hmarks token htoken
  cases h with
  | unknownName mem kind_eq | missingArgument mem kind_eq =>
    have hname := hkind _ mem (by simp [kind_eq])
    rwa [kind_eq] at hname
  | unmatchedOpen mem kind_eq | unmatchedClose mem kind_eq =>
    have hparen := hkind _ mem (by simp [kind_eq])
    rwa [kind_eq] at hparen
  | unexpectedToken mem => exact hmarks _ mem
  | @unexpectedEnd last hlast =>
    have hmark := hmarks last (List.mem_of_getLast? hlast)
    obtain ⟨front, rfl⟩ := List.getLast?_eq_some_iff.mp hlast
    exact ⟨hmark.text_ne, front, last, hsplit, rfl, hmark, blank_behind hcovers hpieces⟩
  | @tooDeep token mem => exact ⟨token, (htokens token mem).1, rfl, hmarks token mem⟩

private theorem pointsAt_of_parse (h : parse source = .error e) : PointsAt source e := by
  obtain ⟨tokens, fault?, pieces, hsplit, htokens, hfault, hpieces, hcovers⟩ := exists_split source
  rw [parse, hsplit] at h
  cases fault? with
  | some fault =>
    cases h
    obtain ⟨piece, hpiece, heq⟩ := hfault e rfl
    exact pointsAt_of_piece heq (hcovers.marks hpiece)
  | none =>
    simp only [Option.elim, Except.bind] at h hsplit
    simp only [eq_self] at hcovers
    have hpieces := hpieces rfl
    by_cases hnil : tokens = []
    · subst hnil
      cases h
      subst hpieces
      intro c hc
      obtain ⟨i, hi⟩ := List.mem_iff_getElem?.mp hc
      exact hcovers.blank i c hi (Nat.zero_le i) (by simp) (.inr trivial)
    · exact pointsAt_of_blames hsplit htokens hpieces hcovers (blames_of_parseTokens hnil h)

private theorem PointsAt.inside (h : PointsAt source e) {span : Span} (hspan : e.span? = some span) :
    span.start < span.stop ∧ span.stop ≤ source.length := by
  cases e with
  | empty | unexpectedEnd => cases hspan
  | tooDeep =>
    cases hspan
    obtain ⟨token, -, -, hmarks⟩ := h
    exact ⟨hmarks.nonempty, hmarks.inside⟩
  | _ =>
    cases hspan
    exact ⟨Marks.nonempty h, Marks.inside h⟩

private theorem parse_blank (h : ∀ c ∈ source.toList, isBlank c = true) : parse source = .error .empty := by
  have hitems : lexItems source = [] := by
    rw [lexItems, items]
    split
    · rfl
    · next c rest hcons =>
      have hnil : source.toList.dropWhile isBlank = [] := List.dropWhile_eq_nil_iff.mpr h
      rw [hnil] at hcons
      cases hcons
  rw [parse, tokenize, hitems]
  rfl

/-- The errors of a source have the places of the texts they name. Only a source of blanks is said to be
empty, an end that comes too early is behind the last token, and no error has a place or a text that
stands in for a missing one. -/
theorem parse_error_pointsAt (source : String) :
    (parse source = .error .empty ↔ ∀ c ∈ source.toList, isBlank c = true) ∧
      (∀ e, parse source = .error e → PointsAt source e ∧
        ∀ span, e.span? = some span → span.start < span.stop ∧ span.stop ≤ source.length) ∧
      (∀ limit, parse source ≠ .error (.tooDeep limit ⟨0, 0⟩)) ∧
      parse source ≠ .error (.unexpectedEnd "") := by
  refine ⟨⟨pointsAt_of_parse, parse_blank⟩, ?_, ?_, ?_⟩
  · intro e h
    have hpoints := pointsAt_of_parse h
    exact ⟨hpoints, fun span => hpoints.inside⟩
  · intro limit h
    have hinside := (pointsAt_of_parse h).inside rfl
    exact absurd hinside.1 (Nat.lt_irrefl 0)
  · intro h
    exact (pointsAt_of_parse h).1 rfl

end EquationSolver.Formula
