import EquationSolver.Proofs.Formula.Places

/-!
# Formulas at other places

The parser does not look at the places of tokens. Tokens that are put elsewhere are read as the same
tree, or they are refused with the same error, at the place where the token that it is about stands now.
-/

namespace EquationSolver.Formula

open EquationSolver.Formula.Parser

variable {move : Span → Span}

def Token.moved (move : Span → Span) (token : Token) : Token :=
  { token with span := move token.span }

@[simp] theorem Token.kind_moved (token : Token) : (token.moved move).kind = token.kind := rfl

@[simp] theorem Token.lexeme_moved (token : Token) : (token.moved move).lexeme = token.lexeme := rfl

@[simp] theorem Token.span_moved (token : Token) : (token.moved move).span = move token.span := rfl

@[simp] theorem Token.closes_moved (token : Token) : (token.moved move).closes = token.closes := rfl

def ParseError.moved (move : Span → Span) : ParseError → ParseError
  | .empty => .empty
  | .unexpectedChar char span => .unexpectedChar char (move span)
  | .invalidNumber lexeme span => .invalidNumber lexeme (move span)
  | .unknownName name span => .unknownName name (move span)
  | .missingArgument name span => .missingArgument name (move span)
  | .unmatchedOpen span => .unmatchedOpen (move span)
  | .unmatchedClose span => .unmatchedClose (move span)
  | .unexpectedToken lexeme span => .unexpectedToken lexeme (move span)
  | .unexpectedEnd after => .unexpectedEnd after
  | .tooDeep limit span => .tooDeep limit (move span)

namespace Parser

def Cursor.moved (move : Span → Span) (here : Cursor) : Cursor :=
  ⟨here.previous.map (Token.moved move), here.rest.map (Token.moved move)⟩

def movedResult (move : Span → Span) : Result → Result
  | .ok (tree, after) => .ok (tree, after.moved move)
  | .error e => .error (e.moved move)

/-- Whether a parser does not look at the places that `move` changes. -/
def Placeless (move : Span → Span) (inner : Nat → Cursor → Result) : Prop :=
  ∀ least here, inner least (here.moved move) = movedResult move (inner least here)

variable {inner : Nat → Cursor → Result} {here : Cursor}

private theorem movedResult_bind {result : Result} {next next' : Node × Cursor → Result}
    (h : ∀ tree after, next' (tree, after.moved move) = movedResult move (next (tree, after))) :
    (movedResult move result).bind next' = movedResult move (result.bind next) := by
  cases result with
  | error e => rfl
  | ok read => exact h read.1 read.2

private theorem skip_moved (here : Cursor) : (here.moved move).skip = here.skip.moved move := by
  obtain ⟨last, _ | ⟨token, rest⟩⟩ := here <;> rfl

private theorem operator?_moved (move : Span → Span) (here : Cursor) :
    (here.moved move).operator? = here.operator? := by
  obtain ⟨_ | last, _ | ⟨token, rest⟩⟩ := here <;> rfl

private theorem tooDeep_moved (hnowhere : move ⟨0, 0⟩ = ⟨0, 0⟩) (here : Cursor) :
    tooDeep (here.moved move) = (tooDeep here).moved move := by
  obtain ⟨_ | last, _ | ⟨token, rest⟩⟩ := here
  · simp [tooDeep, Cursor.moved, ParseError.moved, hnowhere]
  · rfl
  · rfl
  · rfl

private theorem close_moved (opened : Token) (tree : Node) (here : Cursor) :
    close (opened.moved move) tree (here.moved move) = movedResult move (close opened tree here) := by
  obtain ⟨last, _ | ⟨token, rest⟩⟩ := here
  · rfl
  · cases hcloses : token.closes <;>
      simp [close, Cursor.moved, hcloses, movedResult, unexpected, ParseError.moved, Cursor.skip]

private theorem group_moved (hinner : Placeless move inner) (opened : Token) (here : Cursor) :
    group inner (opened.moved move) (here.moved move) = movedResult move (group inner opened here) := by
  have hread := hinner 0 here
  obtain ⟨last, _ | ⟨token, rest⟩⟩ := here
  · simp only [Cursor.moved, List.map_nil] at hread
    simp only [group, Cursor.moved, List.map_nil]
    rw [hread]
    exact movedResult_bind fun tree after => close_moved opened tree after
  cases hcloses : token.closes with
  | true => simp [group, Cursor.moved, hcloses, movedResult, unexpected, ParseError.moved]
  | false =>
    simp only [Cursor.moved, List.map_cons] at hread
    simp only [group, Cursor.moved, List.map_cons, List.head?_cons, Token.closes_moved, hcloses,
      Bool.false_eq_true, if_false]
    rw [hread]
    exact movedResult_bind fun tree after => close_moved opened tree after

private theorem named_moved (hinner : Placeless move inner) (name : String) (span : Span) (here : Cursor) :
    named inner name (move span) (here.moved move) = movedResult move (named inner name span here) := by
  rcases named_cases name with ⟨tree, hname⟩ | hname | ⟨function, hname⟩
  · rw [hname, hname]
    rfl
  · rw [hname, hname]
    rfl
  obtain ⟨last, rest⟩ := here
  obtain ⟨hcall, hmissing⟩ := hname inner span last
  obtain ⟨hcall', hmissing'⟩ := hname inner (move span) (last.map (Token.moved move))
  by_cases hopens : ∃ opening ∈ rest.head?, opening.kind = .openParen
  · obtain ⟨opening, hhead, hopening⟩ := hopens
    obtain ⟨behind, rfl⟩ := List.head?_eq_some_iff.mp hhead
    rw [hcall opening behind hopening]
    refine (hcall' (opening.moved move) (behind.map (Token.moved move)) hopening).trans ?_
    have hgroup := group_moved hinner opening ⟨some opening, behind⟩
    simp only [Cursor.moved, Option.map_some] at hgroup
    rw [hgroup]
    exact movedResult_bind fun argument after => rfl
  · rw [hmissing rest fun opening hhead hopening => hopens ⟨opening, hhead, hopening⟩]
    refine hmissing' _ fun opening hhead hopening => ?_
    rw [List.head?_map, Option.mem_def, Option.map_eq_some_iff] at hhead
    obtain ⟨token, htoken, rfl⟩ := hhead
    exact hopens ⟨token, htoken, hopening⟩

private theorem operand_moved (hinner : Placeless move inner) (here : Cursor) :
    operand inner (here.moved move) = movedResult move (operand inner here) := by
  obtain ⟨last, _ | ⟨token, rest⟩⟩ := here
  · cases last <;> rfl
  cases hk : token.kind with
  | number value => simp [operand, Cursor.moved, Cursor.skip, movedResult, hk]
  | name name =>
    have hname := named_moved hinner name token.span ⟨some token, rest⟩
    simpa [operand, Cursor.moved, Cursor.skip, hk] using hname
  | openParen =>
    have hgroup := group_moved hinner token ⟨some token, rest⟩
    simpa [operand, Cursor.moved, Cursor.skip, hk] using hgroup
  | minus | plus =>
    have hread := hinner UnaryOp.strength ⟨some token, rest⟩
    simp only [Cursor.moved, Option.map_some] at hread
    simp only [operand, operand.signed, Cursor.moved, Cursor.skip, List.map_cons, Token.kind_moved, hk]
    rw [hread]
    exact movedResult_bind fun tree after => rfl
  | star | slash | caret | closeParen =>
    simp [operand, Cursor.moved, movedResult, unexpected, ParseError.moved, hk]

def PlacelessChain (move : Span → Span) (budget : Nat) : Prop :=
  ∀ least left here, chain budget least left (here.moved move) =
    movedResult move (chain budget least left here)

private theorem chain_moved (hnowhere : move ⟨0, 0⟩ = ⟨0, 0⟩) {budget : Nat}
    (ih : ∀ smaller, budget = smaller + 1 →
      Placeless move (expression smaller) ∧ PlacelessChain move smaller) :
    PlacelessChain move budget := by
  intro least left here
  have ho := operator?_moved move here
  cases h : here.operator? with
  | none => cases budget <;> simp [chain, ho, h, movedResult]
  | some next =>
    obtain ⟨op, spelled⟩ := next
    by_cases hlt : op.strength < least
    · cases budget <;> simp [chain, ho, h, hlt, movedResult]
    cases budget with
    | zero => simp [chain, ho, h, hlt, movedResult, tooDeep_moved hnowhere]
    | succ budget =>
      obtain ⟨hexpression, hchain⟩ := ih budget rfl
      have hnext : (if spelled then (here.moved move).skip else here.moved move) =
          (if spelled then here.skip else here).moved move := by
        cases spelled
        · rfl
        · exact skip_moved here
      simp only [chain, ho, h, if_neg hlt, hnext, hexpression _ _]
      exact movedResult_bind fun right after => hchain least (.binary op left right) after

private theorem expression_moved (hnowhere : move ⟨0, 0⟩ = ⟨0, 0⟩) (budget : Nat) :
    Placeless move (expression budget) ∧ PlacelessChain move budget := by
  induction budget with
  | zero =>
    refine ⟨fun least here => ?_, chain_moved hnowhere (by simp)⟩
    simp [expression, movedResult, tooDeep_moved hnowhere]
  | succ budget ih =>
    refine ⟨fun least here => ?_, chain_moved hnowhere (by rintro smaller ⟨⟩; exact ih)⟩
    simp only [expression, operand_moved ih.1 here]
    exact movedResult_bind fun left after => ih.2 least left after

end Parser

/-- Tokens at other places are read alike. Where there is no token at all, no place is changed. -/
theorem parseTokens_moved (hnowhere : move ⟨0, 0⟩ = ⟨0, 0⟩) (ts : List Token) :
    parseTokens (ts.map (Token.moved move)) = (parseTokens ts).mapError (ParseError.moved move) := by
  cases ts with
  | nil => rfl
  | cons token ts =>
    have hread := (expression_moved hnowhere maxDepth).1 0 ⟨none, token :: ts⟩
    simp only [Cursor.moved, Option.map_none, List.map_cons] at hread
    simp only [parseTokens, List.map_cons, List.isEmpty_cons, Bool.false_eq_true, if_false, hread]
    cases expression maxDepth 0 ⟨none, token :: ts⟩ with
    | error e => rfl
    | ok read =>
      obtain ⟨tree, last, _ | ⟨next, rest⟩⟩ := read
      · rfl
      · cases hcloses : next.closes <;>
          simp [movedResult, Cursor.moved, Except.bind, Except.mapError, unexpected,
            ParseError.moved, hcloses]

/-! ## Tokens that differ in their places -/

/-- Whether two errors are the same but for their places, which are those of one and the same token:
one that has the same number in both lists. -/
def SameFault (ts us : List Token) (e e' : ParseError) : Prop :=
  e.span? = none ∧ e' = e ∨
    ∃ (i : Nat) (token token' : Token), ts[i]? = some token ∧ us[i]? = some token' ∧
      e.span? = some token.span ∧ e' = e.moved fun _ => token'.span

def numbered (ts : List Token) : List Token :=
  ts.mapIdx fun i token => { token with span := ⟨i, i + 1⟩ }

def placeOf (ts : List Token) (number : Span) : Span :=
  if number.stop = 0 then number else (ts[number.start]?).elim number Token.span

private theorem placeOf_number {ts : List Token} {i : Nat} {token : Token} (h : ts[i]? = some token) :
    placeOf ts ⟨i, i + 1⟩ = token.span := by
  simp [placeOf, h]

private theorem numbered_moved (ts : List Token) : (numbered ts).map (Token.moved (placeOf ts)) = ts := by
  apply List.ext_getElem?
  intro i
  cases h : ts[i]? with
  | none => simp [numbered, h]
  | some token => simp [numbered, h, Token.moved, placeOf_number h]

private theorem numbered_eq {ts us : List Token} (hkind : us.map Token.kind = ts.map Token.kind)
    (hlexeme : us.map Token.lexeme = ts.map Token.lexeme) : numbered us = numbered ts := by
  apply List.ext_getElem?
  intro i
  have hk := congrArg (fun kinds => kinds[i]?) hkind
  have hl := congrArg (fun lexemes => lexemes[i]?) hlexeme
  simp only [List.getElem?_map] at hk hl
  cases hus : us[i]? <;> cases hts : ts[i]? <;> simp_all [numbered]

private theorem span?_moved (e : ParseError) : (e.moved move).span? = e.span?.map move := by
  cases e <;> rfl

private theorem moved_eq {e : ParseError} {span : Span} (h : e.span? = some span) (move' : Span → Span) :
    e.moved move = (e.moved move').moved fun _ => move span := by
  cases e <;> cases h <;> rfl

private theorem moved_eq_self {e : ParseError} (h : e.span? = none) : e.moved move = e := by
  cases e <;> first | rfl | cases h

private theorem span?_of_parseTokens {ts : List Token} {e : ParseError} (h : parseTokens ts = .error e) :
    e.span? = none ∨ ∃ token ∈ ts, e.span? = some token.span := by
  by_cases hnil : ts = []
  · subst hnil
    cases h
    exact .inl rfl
  cases blames_of_parseTokens hnil h with
  | unexpectedEnd => exact .inl rfl
  | unknownName mem | missingArgument mem | unmatchedOpen mem | unmatchedClose mem
  | unexpectedToken mem | tooDeep mem => exact .inr ⟨_, mem, rfl⟩

/-- Tokens that differ in their places alone are read as the same tree, or refused with the same error
about the same token. -/
theorem parseTokens_alike {ts us : List Token} (hkind : us.map Token.kind = ts.map Token.kind)
    (hlexeme : us.map Token.lexeme = ts.map Token.lexeme) :
    (∀ t, parseTokens ts = .ok t → parseTokens us = .ok t) ∧
      ∀ e, parseTokens ts = .error e → ∃ e', parseTokens us = .error e' ∧ SameFault ts us e e' := by
  have hts := parseTokens_moved (show placeOf ts ⟨0, 0⟩ = _ from rfl) (numbered ts)
  have hus := parseTokens_moved (show placeOf us ⟨0, 0⟩ = _ from rfl) (numbered us)
  rw [numbered_moved] at hts hus
  rw [numbered_eq hkind hlexeme] at hus
  cases hnumbered : parseTokens (numbered ts) with
  | ok tree =>
    rw [hnumbered] at hts hus
    simp only [Except.mapError] at hts hus
    simp [hts, hus]
  | error fault =>
    rw [hnumbered] at hts hus
    simp only [Except.mapError] at hts hus
    refine ⟨by simp [hts], ?_⟩
    rw [hts, hus]
    rintro _ ⟨⟩
    refine ⟨_, rfl, ?_⟩
    rcases span?_of_parseTokens hnumbered with hnone | ⟨token, htoken, hspan⟩
    · exact .inl ⟨by simp [span?_moved, hnone], by simp [moved_eq_self hnone]⟩
    · obtain ⟨i, hi, rfl⟩ := List.mem_mapIdx.mp htoken
      have hlength : us.length = ts.length := by simpa using congrArg List.length hkind
      have hts : ts[i]? = some ts[i] := List.getElem?_eq_getElem hi
      have hus : us[i]? = some us[i] := List.getElem?_eq_getElem (hlength ▸ hi)
      refine .inr ⟨i, ts[i], us[i], hts, hus, ?_, ?_⟩
      · rw [span?_moved, hspan, Option.map_some, placeOf_number hts]
      · rw [← placeOf_number hus]
        exact moved_eq hspan _

end EquationSolver.Formula
