import Mathlib.Data.Int.Basic
import EquationSolver.Proofs.Formula.Recognition

/-!
# What a reading depends on

An operand or an expression that is read depends on its own tokens and on the operator behind them, and
on nothing else. Its parentheses match, so that those that are open in front of it are open behind it.
-/

namespace EquationSolver.Formula

open EquationSolver.Formula.Parser

def Token.opens (token : Token) : Bool :=
  match token.kind with
  | .openParen => true
  | _ => false

namespace Grammar

/-! ## Parentheses -/

/-- How many more parentheses are opened than closed. -/
def excess (ts : List Token) : Int :=
  ts.countP Token.opens - ts.countP Token.closes

/-- The open parentheses behind a token, the innermost first, from those in front of it. -/
def openBehind (opened : List Token) (token : Token) : List Token :=
  if token.opens then token :: opened
  else if token.closes then opened.tail
  else opened

/-- The parentheses that tokens leave open, the innermost first. -/
def unclosed (ts : List Token) : List Token :=
  ts.foldl openBehind []

/-- Whether tokens close no parentheses but their own, and leave some of them open. -/
structure Leaves (ts opened : List Token) : Prop where
  open_eq : ∀ before, ts.foldl openBehind before = opened ++ before
  excess_eq : excess ts = opened.length

variable {ts us opened opened' : List Token} {token opening closing : Token}

private theorem excess_append (ts us : List Token) : excess (ts ++ us) = excess ts + excess us := by
  simp only [excess, List.countP_append]
  omega

theorem leaves_nil : Leaves [] [] := ⟨fun _ => rfl, rfl⟩

theorem Leaves.append (h : Leaves ts opened) (h' : Leaves us opened') :
    Leaves (ts ++ us) (opened' ++ opened) where
  open_eq before := by rw [List.foldl_append, h.open_eq, h'.open_eq, List.append_assoc]
  excess_eq := by
    rw [excess_append, h.excess_eq, h'.excess_eq, List.length_append]
    omega

private theorem leaves_other (hopens : token.opens = false) (hcloses : token.closes = false) :
    Leaves [token] [] where
  open_eq _ := by simp [openBehind, hopens, hcloses]
  excess_eq := by simp [excess, hopens, hcloses]

theorem leaves_opening (h : opening.kind = .openParen) : Leaves [opening] [opening] where
  open_eq _ := by simp [openBehind, Token.opens, h]
  excess_eq := by simp [excess, Token.opens, Token.closes, h]

private theorem Leaves.enclosed (h : Leaves ts []) (hopening : opening.kind = .openParen)
    (hclosing : closing.kind = .closeParen) : Leaves (opening :: (ts ++ [closing])) [] where
  open_eq before := by
    have hbefore := h.open_eq (opening :: before)
    simp_all [openBehind, Token.opens, Token.closes]
  excess_eq := by
    have hexcess := h.excess_eq
    rw [← List.singleton_append, excess_append, excess_append, hexcess]
    simp [excess, Token.opens, Token.closes, hopening, hclosing]

theorem leaves_binary {op : BinaryOp} (h : token.kind = op.kind) : Leaves [token] [] := by
  apply leaves_other
  · cases op <;> simp [Token.opens, h, BinaryOp.kind]
  · cases op <;> simp [Token.closes, h, BinaryOp.kind]

theorem leaves_unary {op : UnaryOp} (h : token.kind = op.kind) : Leaves [token] [] := by
  apply leaves_other
  · cases op <;> simp [Token.opens, h, UnaryOp.kind]
  · cases op <;> simp [Token.closes, h, UnaryOp.kind]

private theorem leaves_number {value : Float} (h : token.kind = .number value) : Leaves [token] [] := by
  apply leaves_other
  · simp [Token.opens, h]
  · simp [Token.closes, h]

theorem leaves_name {name : String} (h : token.kind = .name name) : Leaves [token] [] := by
  apply leaves_other
  · simp [Token.opens, h]
  · simp [Token.closes, h]

private theorem Derivation.leaves {p : Phrase} {t : Node} (d : Derivation p ts t) : Leaves ts [] := by
  induction d with
  | ofProduct _ ih | ofSigned _ ih | ofPower _ ih | ofAtom _ ih => exact ih
  | sum op _ _ spelled _ ihl ihr | product op _ _ spelled _ ihl ihr =>
    exact ihl.append ((leaves_binary spelled).append ihr)
  | power _ spelled _ ihl ihr =>
    have hpow : Leaves [_] [] := leaves_binary (show _ = BinaryOp.pow.kind from spelled)
    exact ihl.append (hpow.append ihr)
  | juxtaposed _ _ _ ihl ihr => exact ihl.append ihr
  | signed op spelled _ ih => exact (leaves_unary spelled).append ih
  | number h => exact leaves_number h
  | var h | pi h | euler h => exact leaves_name h
  | group opens _ closes ih => exact ih.enclosed opens closes
  | call _ h _ opens _ closes ih => exact (leaves_name h).append (ih.enclosed opens closes)

end Grammar

namespace Parser

open Grammar

/-! ## Lookahead -/

/-- Whether the same operator stands at the head of tokens, whatever operand is in front of them. -/
def Alike (rest rest' : List Token) : Prop :=
  ∀ last, Cursor.operator? ⟨last, rest⟩ = Cursor.operator? ⟨last, rest'⟩

/-- Whether no operator stands at the head of tokens, whatever operand is in front of them: there is
nothing, or a closing parenthesis. -/
def Dull (more : List Token) : Prop :=
  ∀ token ∈ more.head?, token.kind = .closeParen

variable {budget least : Nat} {last : Option Token} {ts rest : List Token} {t : Node} {after : Cursor}

theorem alike_cons (token : Token) (rest rest' : List Token) : Alike (token :: rest) (token :: rest') :=
  fun _ => rfl

theorem Dull.operator?_eq_none {more : List Token} (h : Dull more) (last : Option Token) :
    Cursor.operator? ⟨last, more⟩ = none := by
  cases more with
  | nil => rfl
  | cons token more => exact operator?_closeParen (h token rfl)

theorem Dull.alike {more more' : List Token} (h : Dull more) (h' : Dull more') : Alike more more' := by
  intro last
  rw [h.operator?_eq_none, h'.operator?_eq_none]

theorem dull_nil : Dull [] := by
  intro token htoken
  cases htoken

theorem dull_cons {closing : Token} (h : closing.kind = .closeParen) (more : List Token) :
    Dull (closing :: more) := by
  rintro _ ⟨⟩
  exact h

def lastOf (last : Option Token) (us : List Token) : Option Token :=
  us.getLast?.or last

@[simp] theorem lastOf_nil : lastOf last [] = last := rfl

@[simp] theorem lastOf_append (us vs : List Token) :
    lastOf last (us ++ vs) = lastOf (lastOf last us) vs := by
  simp [lastOf, List.getLast?_append, Option.or_assoc]

@[simp] theorem lastOf_cons (token : Token) (us : List Token) :
    lastOf last (token :: us) = lastOf (some token) us :=
  lastOf_append [token] us

/-- Whether a run behind a token, when it succeeds, passes over tokens with parentheses that match, and
does the same whatever follows, as long as the operator behind those tokens is the same. -/
def Steady (last : Option Token) (run : List Token → Result) : Prop :=
  ∀ ⦃ts t after⦄, run ts = .ok (t, after) →
    ∃ us, ts = us ++ after.rest ∧ after.previous = lastOf last us ∧ Leaves us [] ∧
      ∀ rest, Alike after.rest rest → run (us ++ rest) = .ok (t, ⟨after.previous, rest⟩)

private theorem Stops.limit_ofStrength (h : Stops least after) (hle : least ≤ 5) :
    Stops (Phrase.ofStrength least).limit after := by
  match least with
  | 0 | 1 | 2 => exact h.mono (by decide)
  | 3 => exact h.mono (by decide)
  | 4 => exact h
  | 5 => exact h.of_pow

private theorem le_reach_ofStrength (hle : least ≤ 5) : least ≤ (Phrase.ofStrength least).reach := by
  match least with
  | 0 | 1 | 2 | 3 | 4 | 5 => decide

theorem expression_steady (budget : Nat) (hle : least ≤ 5) (last : Option Token) :
    Steady last fun ts => expression budget least ⟨last, ts⟩ := by
  intro ts t after h
  obtain ⟨us, hpass, ⟨d⟩, hstops⟩ := (expression_sound budget).1 h
  obtain ⟨previous, rest'⟩ := after
  obtain ⟨hrest, hprevious⟩ := hpass
  simp only at hrest hprevious hstops
  subst hrest hprevious
  refine ⟨us, rfl, by simp [lastOf, List.getLast?_eq_some_getLast d.ne_nil], d.leaves,
    fun rest halike => ?_⟩
  have htakes := fun rest hs => d.takes (le_reach_ofStrength hle) last rest hs budget
  -- The budget lasts for the derivation, since it lasted in front of other tokens.
  have hlevels : d.levels ≤ budget := by
    apply Nat.le_of_not_lt
    intro hlt
    obtain ⟨span, hdeep⟩ := (htakes rest' (hstops.limit_ofStrength hle)).2 hlt
    cases h.symm.trans hdeep
  have hstops' : Stops least ⟨us.getLast?, rest⟩ := by
    intro op spelled ho
    rw [← halike] at ho
    exact hstops op spelled ho
  exact ((htakes rest (hstops'.limit_ofStrength hle)).1 hlevels).trans (chain_of_stops hstops' _ t)

theorem group_cases (inner : Nat → Cursor → Result) (opening : Token) (here : Cursor) :
    (∃ closing rest, here.rest = closing :: rest ∧ closing.closes = true ∧
      group inner opening here = .error (unexpected closing)) ∨
    group inner opening here =
      (inner 0 here).bind fun (tree, after) => close opening tree after := by
  obtain ⟨last, _ | ⟨token, rest⟩⟩ := here
  · exact .inr rfl
  · cases hcloses : token.closes with
    | true => exact .inl ⟨token, rest, rfl, hcloses, by simp [group, hcloses]⟩
    | false => exact .inr (by simp [group, hcloses])

theorem expression_of_closes {closing : Token} (h : closing.closes = true) (budget least : Nat)
    (last : Option Token) (rest : List Token) :
    ∃ e, expression budget least ⟨last, closing :: rest⟩ = .error e := by
  cases budget with
  | zero => exact ⟨_, rfl⟩
  | succ budget => exact ⟨_, by simp [expression, operand, closes_iff.mp h, Except.bind]; rfl⟩

theorem group_of_expression {budget : Nat} {here between : Cursor} {tree : Node}
    (h : expression budget 0 here = .ok (tree, between)) (opening : Token) :
    group (expression budget) opening here = close opening tree between := by
  rcases group_cases (expression budget) opening here with ⟨closing, rest, hrest, hcloses, -⟩ | hgroup
  · obtain ⟨e, he⟩ := expression_of_closes hcloses budget 0 here.previous rest
    rw [← hrest] at he
    cases h.symm.trans he
  · rw [hgroup, h]
    rfl

/-- A name means the same wherever it stands, but for a function, which takes a group. -/
theorem named_cases (name : String) :
    (∃ t, ∀ inner span here, named inner name span here = .ok (t, here)) ∨
      (∀ inner span here, named inner name span here = .error (.unknownName name span)) ∨
      ∃ function, ∀ inner span last,
        (∀ opening rest, opening.kind = .openParen →
          named inner name span ⟨last, opening :: rest⟩ =
            (group inner opening ⟨some opening, rest⟩).bind fun (argument, after) =>
              .ok (.call function argument, after)) ∧
        ∀ rest : List Token, (∀ token ∈ rest.head?, token.kind ≠ .openParen) →
          named inner name span ⟨last, rest⟩ = .error (.missingArgument name span) := by
  by_cases hx : name = "x"
  · exact .inl ⟨.var, fun _ _ _ => by simp [named, hx]⟩
  by_cases hpi : name = "pi" ∨ name = "π"
  · exact .inl ⟨.number pi, fun _ _ _ => by simp [named, hx, hpi]⟩
  by_cases he : name = "e"
  · exact .inl ⟨.number eulerNumber, fun _ _ _ => by simp [named, he]⟩
  cases hknown : Builtin.ofName? name with
  | none => exact .inr (.inl fun _ _ _ => by simp [named, hx, hpi, he, hknown])
  | some function =>
    refine .inr (.inr ⟨function, fun inner span last => ⟨fun opening rest hopening => ?_,
      fun rest hrest => ?_⟩⟩)
    · exact named_call hknown hopening inner span last rest
    · cases rest with
      | nil => simp [named, hx, hpi, he, hknown]
      | cons token rest =>
        obtain ⟨kind, place, lexeme⟩ := token
        have hkind : kind ≠ .openParen := hrest _ rfl
        simp only [named, hx, hpi, he, hknown, if_false]
        split
        · next heq =>
          cases heq
          exact absurd rfl hkind
        · rfl

private theorem group_steady {budget : Nat} {opening : Token} (hopening : opening.kind = .openParen)
    (h : group (expression budget) opening ⟨some opening, ts⟩ = .ok (t, after)) :
    ∃ us, ts = us ++ after.rest ∧ after.previous = lastOf (some opening) us ∧
      Leaves (opening :: us) [] ∧ ∀ rest, group (expression budget) opening ⟨some opening, us ++ rest⟩ =
        .ok (t, ⟨after.previous, rest⟩) := by
  rcases group_cases (expression budget) opening ⟨some opening, ts⟩ with ⟨_, _, _, _, he⟩ | hgroup
  · cases h.symm.trans he
  obtain ⟨⟨tree, between⟩, hinner, hclose⟩ := bind_eq_ok (hgroup.symm.trans h)
  obtain ⟨closing, hclosing, hrest, hprevious, rfl⟩ := close_eq_ok hclose
  obtain ⟨us, rfl, -, hleaves, hsame⟩ :=
    expression_steady budget (Nat.zero_le 5) (some opening) hinner
  refine ⟨us ++ [closing], by simp [hrest], by simp [hprevious],
    hleaves.enclosed hopening hclosing, fun rest => ?_⟩
  have hinner' := hsame (closing :: rest) (hrest ▸ alike_cons closing after.rest rest)
  rw [List.append_assoc, List.singleton_append, group_of_expression hinner']
  simp [close, closes_iff.mpr hclosing, Cursor.skip, hprevious]

private theorem named_steady (budget : Nat) (name : String) (span : Span) (last : Option Token) :
    Steady last fun ts => named (expression budget) name span ⟨last, ts⟩ := by
  intro ts t after h
  rcases named_cases name with ⟨tree, hname⟩ | hname | ⟨function, hname⟩
  · cases (hname ..).symm.trans h
    exact ⟨[], rfl, rfl, leaves_nil, fun rest _ => hname ..⟩
  · cases (hname ..).symm.trans h
  · rcases ts with _ | ⟨opening, ts⟩
    · cases ((hname _ _ _).2 [] (by simp)).symm.trans h
    · by_cases hopening : opening.kind = .openParen
      · obtain ⟨⟨argument, behind⟩, hgroup, hcall⟩ :=
          bind_eq_ok (((hname _ _ _).1 opening ts hopening).symm.trans h)
        cases hcall
        obtain ⟨us, hts, hprevious, hleaves, hsame⟩ := group_steady hopening hgroup
        refine ⟨opening :: us, congrArg (opening :: ·) hts, by simp [hprevious], hleaves,
          fun rest _ => ?_⟩
        refine ((hname _ _ _).1 opening (us ++ rest) hopening).trans ?_
        simp only [hsame rest, Except.bind]
      · cases ((hname _ _ _).2 (opening :: ts) (by simpa using hopening)).symm.trans h

theorem operand_steady (budget : Nat) (last : Option Token) :
    Steady last fun ts => operand (expression budget) ⟨last, ts⟩ := by
  intro ts t after h
  cases ts with
  | nil => cases h
  | cons token ts =>
    cases hk : token.kind with
    | number value =>
      simp only [operand, hk] at h
      cases h
      exact ⟨[token], rfl, rfl, leaves_number hk, fun rest _ => by simp [operand, hk, Cursor.skip]⟩
    | name name =>
      simp only [operand, hk, Cursor.skip] at h
      obtain ⟨us, hts, hprevious, hleaves, hsame⟩ :=
        named_steady budget name token.span (some token) h
      refine ⟨token :: us, congrArg (token :: ·) hts, by simp [hprevious],
        (leaves_name hk).append hleaves, fun rest halike => ?_⟩
      simpa [operand, hk, Cursor.skip] using hsame rest halike
    | openParen =>
      simp only [operand, hk, Cursor.skip] at h
      obtain ⟨us, hts, hprevious, hleaves, hsame⟩ := group_steady hk h
      refine ⟨token :: us, congrArg (token :: ·) hts, by simp [hprevious], hleaves, fun rest _ => ?_⟩
      simpa [operand, hk, Cursor.skip] using hsame rest
    | minus | plus =>
      simp only [operand, operand.signed, hk, Cursor.skip] at h
      obtain ⟨⟨tree, behind⟩, hread, hsign⟩ := bind_eq_ok h
      cases hsign
      obtain ⟨us, hts, hprevious, hleaves, hsame⟩ :=
        expression_steady budget (show UnaryOp.strength ≤ 5 by decide) (some token) hread
      have hsign : Leaves [token] [] :=
        leaves_other (by simp [Token.opens, hk]) (by simp [Token.closes, hk])
      refine ⟨token :: us, congrArg (token :: ·) hts, by simp [hprevious], hsign.append hleaves,
        fun rest halike => ?_⟩
      simp [operand, operand.signed, hk, Cursor.skip, hsame rest halike, Except.bind]
    | star | slash | caret | closeParen =>
      simp only [operand, hk] at h
      cases h

end Parser

end EquationSolver.Formula
