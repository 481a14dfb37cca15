import EquationSolver.Proofs.Formula.Lookahead

/-!
# What a refusal tells

Where the parser refuses tokens, its error tells what can be done about them. At a missing operand or
a missing parenthesis the tokens can be completed, in front of a parenthesis too many they are a
formula, and a token that is refused otherwise is refused whatever follows it.
-/

namespace EquationSolver.Formula

open Grammar EquationSolver.Formula.Parser

namespace Parser

def Begins (rest ts : List Token) : Prop :=
  ∀ token ∈ ts.head?, rest.head? = some token

def Fails (result : Result) : Prop :=
  ∃ e, result = .error e

def Completes (result : Result) (more : List Token) : Prop :=
  ∃ t last, result = .ok (t, ⟨last, more⟩)

structure Closing (closings opened : List Token) : Prop where
  length_eq : closings.length = opened.length
  kind_eq : ∀ token ∈ closings, token.kind = .closeParen

/-- Whether a run on tokens `us` and others comes to an inner run on the others, with parentheses left
open by `us`, and closes them after that. The others are only required to begin like `ts`. -/
structure ComesTo (run inner : List Token → Result) (us ts opened : List Token) : Prop where
  leaves : Leaves us opened
  fails : ∀ rest, Begins rest ts → Fails (inner rest) → Fails (run (us ++ rest))
  completes : ∀ rest closings more, Begins rest ts → Closing closings opened → Dull more →
    Completes (inner rest) (closings ++ more) → Completes (run (us ++ rest)) more

/-- Whether an error says that a token can be followed by nothing that makes a formula. -/
inductive Refuses (token : Token) : ParseError → Prop
  | unexpected : Refuses token (.unexpectedToken token.lexeme token.span)
  | unknown (name : String) : Refuses token (.unknownName name token.span)
  | tooDeep : Refuses token (.tooDeep maxDepth token.span)

/-- What the error of a run on tokens behind `last` tells. -/
inductive Diagnosis (run : List Token → Result) (last : Option Token) (ts : List Token) :
    ParseError → Prop
  | missingOperand {opened : List Token} (leaves : Leaves ts opened)
      (completes : ∀ x closings more, x.kind = .name "x" → Closing closings opened → Dull more →
        Completes (run (ts ++ x :: (closings ++ more))) more) :
      Diagnosis run last ts (.unexpectedEnd ((lastOf last ts).elim "" (·.lexeme)))
  | missingClosing {innermost : Token} {opened : List Token} (leaves : Leaves ts (innermost :: opened))
      (completes : ∀ closings more, Closing closings (innermost :: opened) → Dull more →
        Completes (run (ts ++ (closings ++ more))) more) :
      Diagnosis run last ts (.unmatchedOpen innermost.span)
  | refused (us vs : List Token) {token : Token} {e : ParseError} (split : ts = us ++ vs)
      (begins : ts ≠ [] → us ≠ []) (last_eq : lastOf last us = some token) (refuses : Refuses token e)
      (fails : ∀ rest, Fails (run (us ++ rest))) : Diagnosis run last ts e
  | missingArgument (name : String) (span : Span) :
      Diagnosis run last ts (.missingArgument name span)

section ComesTo

variable {run inner : List Token → Result} {last : Option Token}
  {us ts opened closings more : List Token} {opening : Token} {e : ParseError}

private theorem begins_append {us vs : List Token} (h : us ++ vs ≠ [] → us ≠ []) (rest : List Token) :
    Begins (us ++ rest) (us ++ vs) := by
  intro token htoken
  have hne : us ≠ [] := h (by rintro hnil; simp [hnil] at htoken)
  obtain ⟨first, us, rfl⟩ := List.exists_cons_of_ne_nil hne
  exact htoken

private theorem begins_append_self (ts rest : List Token) : Begins (ts ++ rest) ts := by
  intro token htoken
  obtain ⟨us, rfl⟩ := List.head?_eq_some_iff.mp htoken
  rfl

private theorem Begins.append {rest : List Token} (h : Begins rest ts) (us : List Token) :
    Begins (us ++ rest) (us ++ ts) := by
  cases us with
  | nil => exact h
  | cons first us => exact begins_append_self [first] _

private theorem Begins.alike {rest : List Token} (h : Begins rest ts) (hne : ts ≠ []) : Alike ts rest := by
  obtain ⟨token, ts, rfl⟩ := List.exists_cons_of_ne_nil hne
  obtain ⟨rest, rfl⟩ := List.head?_eq_some_iff.mp (h token rfl)
  exact alike_cons token ts rest

private theorem Closing.split (us opened : List Token) (h : Closing closings (us ++ opened)) :
    ∃ first second, closings = first ++ second ∧ Closing first us ∧ Closing second opened := by
  have hlength := h.length_eq
  rw [List.length_append] at hlength
  refine ⟨closings.take us.length, closings.drop us.length, (List.take_append_drop ..).symm,
    ⟨?_, ?_⟩, ⟨?_, ?_⟩⟩
  · rw [List.length_take]
    omega
  · exact fun token htoken => h.kind_eq token (List.mem_of_mem_take htoken)
  · rw [List.length_drop]
    omega
  · exact fun token htoken => h.kind_eq token (List.mem_of_mem_drop htoken)

private theorem Closing.dull (h : Closing closings opened) (hmore : Dull more) :
    Dull (closings ++ more) := by
  cases closings with
  | nil => exact hmore
  | cons closing closings => exact dull_cons (h.kind_eq closing List.mem_cons_self) _

private theorem bind_ok (result : Result) : result.bind .ok = result := by
  cases result <;> rfl

theorem bind_eq_error {α β : Type} {result : Except ParseError α} {next : α → Except ParseError β}
    (h : result.bind next = .error e) :
    result = .error e ∨ ∃ read, result = .ok read ∧ next read = .error e := by
  cases result with
  | error e' =>
    cases h
    exact .inl rfl
  | ok read => exact .inr ⟨read, rfl, h⟩

private theorem refused_first {token : Token} (hrefuses : Refuses token e)
    (hfails : ∀ rest, Fails (run (token :: rest))) : Diagnosis run last (token :: ts) e :=
  .refused [token] ts rfl (by simp) rfl hrefuses hfails

/-- What the error of an inner run tells, it tells of the run that came to it. -/
theorem Diagnosis.within (us : List Token) {last' : Option Token} (h : Diagnosis inner last' ts e)
    (hcomes : ComesTo run inner us ts opened) (hlast : lastOf last us = last') :
    Diagnosis run last (us ++ ts) e := by
  subst hlast
  cases h with
  | @missingOperand opened' leaves completes =>
    rw [← lastOf_append]
    refine .missingOperand (hcomes.leaves.append leaves) fun x closings more hx hclosing hmore => ?_
    obtain ⟨first, second, rfl, hfirst, hsecond⟩ := hclosing.split opened' opened
    rw [List.append_assoc, List.append_assoc]
    exact hcomes.completes _ second more (begins_append_self ts _) hsecond hmore
      (completes x first (second ++ more) hx hfirst (hsecond.dull hmore))
  | @missingClosing innermost opened' leaves completes =>
    refine .missingClosing (hcomes.leaves.append leaves) fun closings more hclosing hmore => ?_
    obtain ⟨first, second, rfl, hfirst, hsecond⟩ := hclosing.split (innermost :: opened') opened
    rw [List.append_assoc, List.append_assoc]
    exact hcomes.completes _ second more (begins_append_self ts _) hsecond hmore
      (completes first (second ++ more) hfirst (hsecond.dull hmore))
  | @refused us' vs token _ split begins last_eq refuses fails =>
    subst split
    refine .refused (us ++ us') vs (List.append_assoc us us' vs).symm ?_
      (by rw [lastOf_append, last_eq]) refuses ?_
    · simp only [ne_eq, List.append_eq_nil_iff, not_and] at begins ⊢
      intro hts hus hus'
      exact begins (fun _ hvs => hts hus hus' hvs) hus'
    · intro rest
      rw [List.append_assoc]
      exact hcomes.fails _ (begins_append begins rest) (fails rest)
  | missingArgument name span => exact .missingArgument name span

/-- A run that hands what an inner run has read to another one comes to the inner run, if the other one
succeeds where no operator follows. -/
theorem comesTo_of_bind (next : Node × Cursor → Result) (hleaves : Leaves us [])
    (hrun : ∀ rest, Begins rest ts → run (us ++ rest) = (inner rest).bind next)
    (hnext : ∀ t last more, Dull more → Completes (next (t, ⟨last, more⟩)) more) :
    ComesTo run inner us ts [] where
  leaves := hleaves
  fails rest hbegins := by
    rintro ⟨e, he⟩
    exact ⟨e, by rw [hrun rest hbegins, he]; rfl⟩
  completes rest closings more hbegins hclosing hmore := by
    rintro ⟨t, last, hinner⟩
    obtain rfl := List.length_eq_zero_iff.mp hclosing.length_eq
    rw [hrun rest hbegins, hinner]
    exact hnext t last more hmore

private theorem completes_chain (budget least : Nat) (t : Node) (last : Option Token) (hmore : Dull more) :
    Completes (chain budget least t ⟨last, more⟩) more :=
  ⟨t, last, chain_of_stops (stops_of_operator?_eq_none (hmore.operator?_eq_none last)) budget t⟩

section Group

variable {budget : Nat} (us : List Token) (next : Node × Cursor → Result) (hleaves : Leaves us [opening])
  (hrun : ∀ rest, run (us ++ rest) =
    (group (expression budget) opening ⟨some opening, rest⟩).bind next)
  (hnext : ∀ t last more, Dull more → Completes (next (t, ⟨last, more⟩)) more)

include hrun in
private theorem fails_of_group {rest : List Token}
    (h : Fails (group (expression budget) opening ⟨some opening, rest⟩)) : Fails (run (us ++ rest)) := by
  obtain ⟨e, he⟩ := h
  exact ⟨e, by rw [hrun, he]; rfl⟩

include hrun hnext in
private theorem completes_of_closing {rest : List Token} {t : Node} {last : Option Token} {closing : Token}
    (hinner : expression budget 0 ⟨some opening, rest⟩ = .ok (t, ⟨last, closing :: more⟩))
    (hclosing : closing.kind = .closeParen) (hmore : Dull more) :
    Completes (run (us ++ rest)) more := by
  rw [hrun, group_of_expression hinner]
  simp only [close, closes_iff.mpr hclosing, if_true, Cursor.skip]
  exact hnext t (some closing) more hmore

include hleaves hrun hnext in
private theorem comesTo_group :
    ComesTo run (fun rest => expression budget 0 ⟨some opening, rest⟩) us ts [opening] where
  leaves := hleaves
  fails rest _ := by
    rintro ⟨e, he⟩
    apply fails_of_group us next hrun
    rcases group_cases (expression budget) opening ⟨some opening, rest⟩ with
      ⟨closing, _, _, _, hgroup⟩ | hgroup
    · exact ⟨_, hgroup⟩
    · exact ⟨e, by rw [hgroup, he]; rfl⟩
  completes rest closings more _ hclosing hmore := by
    rintro ⟨t, last, hinner⟩
    obtain ⟨closing, rfl⟩ := List.length_eq_one_iff.mp hclosing.length_eq
    exact completes_of_closing us next hrun hnext hinner (hclosing.kind_eq closing List.mem_cons_self) hmore

include hleaves hrun hnext in
private theorem diagnosis_close {t : Node} {after : Cursor}
    (hread : expression budget 0 ⟨some opening, ts⟩ = .ok (t, after))
    (h : close opening t after = .error e) : Diagnosis run last (us ++ ts) e := by
  obtain ⟨us', rfl, -, hleaves', hsame⟩ :=
    expression_steady budget (Nat.zero_le 5) (some opening) hread
  obtain ⟨previous, _ | ⟨token, rest⟩⟩ := after
  · cases h
    rw [List.append_nil]
    refine .missingClosing (hleaves.append hleaves') fun closings more hclosing hmore => ?_
    obtain ⟨closing, rfl⟩ := List.length_eq_one_iff.mp hclosing.length_eq
    have hkind := hclosing.kind_eq closing List.mem_cons_self
    rw [List.append_assoc]
    exact completes_of_closing us next hrun hnext
      (hsame (closing :: more) (dull_nil.alike (dull_cons hkind more))) hkind hmore
  · cases hcloses : token.closes with
    | true => simp [close, hcloses] at h
    | false =>
      simp only [close, hcloses] at h
      cases h
      refine .refused (us ++ us' ++ [token]) rest (by simp) (by simp) (by simp) .unexpected
        fun rest' => ?_
      rw [List.append_assoc, List.append_assoc, List.singleton_append]
      apply fails_of_group us next hrun
      refine ⟨unexpected token, ?_⟩
      rw [group_of_expression (hsame _ (alike_cons token rest rest'))]
      simp [close, hcloses]

include hleaves hrun hnext in
private theorem diagnosis_group (hlast : lastOf last us = some opening)
    (hinner : ∀ e, expression budget 0 ⟨some opening, ts⟩ = .error e →
      Diagnosis (fun ts => expression budget 0 ⟨some opening, ts⟩) (some opening) ts e)
    (h : group (expression budget) opening ⟨some opening, ts⟩ = .error e) :
    Diagnosis run last (us ++ ts) e := by
  have hcomes : ∀ ts,
      ComesTo run (fun rest => expression budget 0 ⟨some opening, rest⟩) us ts [opening] :=
    fun _ => comesTo_group us next hleaves hrun hnext
  rcases group_cases (expression budget) opening ⟨some opening, ts⟩ with
    ⟨closing, rest, rfl, hcloses, hgroup⟩ | hgroup
  · cases h.symm.trans hgroup
    refine .refused (us ++ [closing]) rest (by simp) (by simp) (by simp) .unexpected fun rest' => ?_
    rw [List.append_assoc]
    exact (hcomes []).fails _ (begins_append_self [] _) (expression_of_closes hcloses budget 0 _ rest')
  · rcases bind_eq_error (hgroup.symm.trans h) with hread | ⟨⟨t, after⟩, hread, hclose⟩
    · exact (hinner e hread).within us (hcomes ts) hlast
    · exact diagnosis_close us next hleaves hrun hnext hread hclose

end Group

end ComesTo

/-! ## Operands, expressions and chains -/

variable {budget least : Nat} {last : Option Token} {ts : List Token} {left : Node} {e : ParseError}

def ExpressionsDiagnosed (budget : Nat) : Prop :=
  ∀ ⦃least last ts e⦄, (lastOf last ts).isSome = true →
    expression budget least ⟨last, ts⟩ = .error e →
      Diagnosis (fun ts => expression budget least ⟨last, ts⟩) last ts e

def ChainsDiagnosed (budget : Nat) : Prop :=
  ∀ ⦃least left last ts e⦄, chain budget least left ⟨last, ts⟩ = .error e →
    ts ≠ [] ∧ Diagnosis (fun ts => chain budget least left ⟨last, ts⟩) last ts e

theorem isSome_lastOf {token : Token} (ts : List Token) : (lastOf (some token) ts).isSome = true := by
  simp [lastOf]

private theorem eq_error_of_bind {result : Result} {f : Node → Node}
    (h : (result.bind fun (t, after) => .ok (f t, after)) = .error e) : result = .error e := by
  rcases bind_eq_error h with h | ⟨read, -, hwrapped⟩
  · exact h
  · cases hwrapped

private theorem diagnosis_signed {op : UnaryOp} {sign : Token} (ih : ExpressionsDiagnosed budget)
    (hk : sign.kind = op.kind) (h : operand (expression budget) ⟨last, sign :: ts⟩ = .error e) :
    Diagnosis (fun ts => operand (expression budget) ⟨last, ts⟩) last (sign :: ts) e := by
  rw [operand_sign hk] at h
  have hinner := ih (isSome_lastOf ts) (eq_error_of_bind h)
  refine hinner.within [sign] (comesTo_of_bind (fun (t, after) => .ok (.unary op t, after))
    (leaves_unary hk) ?_ ?_) rfl
  · exact fun rest _ => operand_sign hk (expression budget) last rest
  · exact fun t last more _ => ⟨.unary op t, last, rfl⟩

private theorem ExpressionsDiagnosed.inner (ih : ExpressionsDiagnosed budget) (opening : Token)
    (e : ParseError) (h : expression budget 0 ⟨some opening, ts⟩ = .error e) :
    Diagnosis (fun ts => expression budget 0 ⟨some opening, ts⟩) (some opening) ts e :=
  ih (isSome_lastOf ts) h

private theorem diagnosis_named {token : Token} {name : String} (ih : ExpressionsDiagnosed budget)
    (hk : token.kind = .name name) (h : operand (expression budget) ⟨last, token :: ts⟩ = .error e) :
    Diagnosis (fun ts => operand (expression budget) ⟨last, ts⟩) last (token :: ts) e := by
  simp only [operand, hk, Cursor.skip] at h
  rcases named_cases name with ⟨tree, hname⟩ | hname | ⟨function, hname⟩
  · cases (hname ..).symm.trans h
  · cases (hname ..).symm.trans h
    exact refused_first (.unknown name) fun rest => ⟨_, by simp [operand, hk, hname]; rfl⟩
  · rcases ts with _ | ⟨opening, ts⟩
    · cases ((hname _ _ _).2 [] (by simp)).symm.trans h
      exact .missingArgument name token.span
    · by_cases hopening : opening.kind = .openParen
      · rw [(hname _ _ _).1 opening ts hopening] at h
        refine diagnosis_group [token, opening] (fun (t, after) => .ok (.call function t, after))
          ((leaves_name hk).append (leaves_opening hopening)) (fun rest => ?_)
          (fun t last more _ => ⟨.call function t, last, rfl⟩) rfl (ih.inner opening)
          (eq_error_of_bind h)
        simp [operand, hk, Cursor.skip, (hname _ _ _).1 opening rest hopening]
      · cases ((hname _ _ _).2 (opening :: ts) (by simpa using hopening)).symm.trans h
        exact .missingArgument name token.span

private theorem diagnosis_operand (ih : ExpressionsDiagnosed budget)
    (h : operand (expression budget) ⟨last, ts⟩ = .error e) :
    Diagnosis (fun ts => operand (expression budget) ⟨last, ts⟩) last ts e := by
  cases ts with
  | nil =>
    cases h
    refine .missingOperand leaves_nil fun x closings more hx hclosing hmore => ?_
    obtain rfl := List.length_eq_zero_iff.mp hclosing.length_eq
    exact ⟨.var, some x, by simp [operand, hx, named, Cursor.skip]⟩
  | cons token ts =>
    cases hk : token.kind with
    | number value =>
      simp only [operand, hk] at h
      cases h
    | name name => exact diagnosis_named ih hk h
    | openParen =>
      simp only [operand, hk, Cursor.skip] at h
      refine diagnosis_group [token] .ok (leaves_opening hk) (fun rest => ?_)
        (fun t last more _ => ⟨t, last, rfl⟩) rfl (ih.inner token) h
      simp [operand, hk, Cursor.skip, bind_ok]
    | minus => exact diagnosis_signed ih (show token.kind = UnaryOp.negate.kind from hk) h
    | plus => exact diagnosis_signed ih (show token.kind = UnaryOp.keep.kind from hk) h
    | star | slash | caret | closeParen =>
      simp only [operand, hk] at h
      cases h
      exact refused_first .unexpected fun rest => ⟨unexpected token, by simp [operand, hk]⟩

private theorem exists_signs {op : BinaryOp} {spelled : Bool}
    (h : Cursor.operator? ⟨last, ts⟩ = some (op, spelled)) :
    ∃ signs tail, ts = signs ++ tail ∧ Leaves signs [] ∧
      (lastOf (lastOf last signs) tail).isSome = true ∧
      ∀ rest budget least left, Begins rest tail → least ≤ op.strength →
        chain (budget + 1) least left ⟨last, signs ++ rest⟩ =
          (expression budget (rightStrength op) ⟨lastOf last signs, rest⟩).bind
            fun (right, after) => chain budget least (.binary op left right) after := by
  obtain ⟨token, tail, rfl, ⟨rfl, hk⟩ | ⟨rfl, rfl, meet⟩⟩ := operator?_eq_some h
  · refine ⟨[token], tail, rfl, leaves_binary hk, isSome_lastOf tail,
      fun rest budget least left _ hle => ?_⟩
    simp only [List.singleton_append, chain, operator?_spelled hk]
    rw [if_neg (by omega)]
    rfl
  · refine ⟨[], token :: tail, rfl, leaves_nil, by simp [isSome_lastOf],
      fun rest budget least left hbegins hle => ?_⟩
    obtain ⟨rest, rfl⟩ := List.head?_eq_some_iff.mp (hbegins token rfl)
    simp only [List.nil_append, chain, operator?_juxtaposed meet]
    rw [if_neg (by omega)]
    rfl

/-- A run that reads an operand and goes on with the chain behind it is refused because of the operand or
because of the chain. -/
theorem diagnosis_behind {run first : List Token → Result} {last' : Option Token} (us : List Token)
    (f : Node → Node) (hchains : ChainsDiagnosed budget) (hleaves : Leaves us [])
    (hlast : lastOf last us = last')
    (hrun : ∀ rest, Begins rest ts →
      run (us ++ rest) = (first rest).bind fun (t, after) => chain budget least (f t) after)
    (hsteady : Steady last' first) (hfirst : ∀ e, first ts = .error e → Diagnosis first last' ts e)
    (h : run (us ++ ts) = .error e) : Diagnosis run last (us ++ ts) e := by
  have hself : Begins ts ts := by simpa using begins_append_self ts []
  rcases bind_eq_error ((hrun ts hself).symm.trans h) with hread | ⟨⟨tree, previous, rest⟩, hread, hchain⟩
  · refine (hfirst e hread).within us (comesTo_of_bind _ hleaves hrun ?_) hlast
    exact fun t last more hmore => completes_chain budget least (f t) last hmore
  · obtain ⟨vs, rfl, hprevious, hleaves', hsame⟩ := hsteady hread
    obtain ⟨hne, hdiagnosis⟩ := hchains hchain
    rw [← List.append_assoc]
    refine hdiagnosis.within (us ++ vs) (comesTo_of_bind .ok (hleaves.append hleaves') ?_ ?_)
      (by rw [lastOf_append, hlast, ← hprevious])
    · intro rest' hbegins
      rw [List.append_assoc, hrun _ (hbegins.append vs), hsame rest' (hbegins.alike hne), bind_ok]
      rfl
    · exact fun t last more _ => ⟨t, last, rfl⟩

private theorem rightStrength_le (op : BinaryOp) : rightStrength op ≤ 5 := by
  cases op <;> decide

private theorem diagnosed_zero : ExpressionsDiagnosed 0 ∧ ChainsDiagnosed 0 := by
  constructor
  · intro least last ts e hlast h
    cases h
    cases ts with
    | nil =>
      obtain ⟨token, rfl⟩ := Option.isSome_iff_exists.mp hlast
      exact .refused [] [] rfl (fun hne => absurd rfl hne) rfl .tooDeep fun rest => ⟨_, rfl⟩
    | cons token ts => exact refused_first .tooDeep fun rest => ⟨_, rfl⟩
  · intro least left last ts e h
    cases ts with
    | nil => cases h
    | cons token ts =>
      -- The operator is read off the first token.
      have hsame : ∀ rest, Cursor.operator? ⟨last, token :: rest⟩ =
          Cursor.operator? ⟨last, token :: ts⟩ := fun _ => rfl
      refine ⟨List.cons_ne_nil token ts, ?_⟩
      simp only [chain] at h
      split at h
      · cases h
      · next op spelled ho =>
        split at h
        · cases h
        · next hlt =>
          cases h
          exact refused_first .tooDeep fun rest =>
            ⟨tooDeep ⟨last, token :: rest⟩, by simp only [chain, hsame, ho, if_neg hlt]⟩

/-- Every refusal tells what it should, within any budget. -/
theorem diagnosed (budget : Nat) : ExpressionsDiagnosed budget ∧ ChainsDiagnosed budget := by
  induction budget with
  | zero => exact diagnosed_zero
  | succ budget ih =>
    constructor
    · intro least last ts e _ h
      exact diagnosis_behind [] id ih.2 leaves_nil rfl (fun _ _ => rfl) (operand_steady budget last)
        (fun _ => diagnosis_operand ih.1) h
    · intro least left last ts e h
      cases ho : Cursor.operator? ⟨last, ts⟩ with
      | none => simp [chain, ho] at h
      | some next =>
        obtain ⟨op, spelled⟩ := next
        have hle : least ≤ op.strength := by
          apply Nat.le_of_not_lt
          intro hlt
          simp [chain, ho, hlt] at h
        obtain ⟨signs, tail, rfl, hleaves, hlast, hchain⟩ := exists_signs ho
        constructor
        · rintro hnil
          rw [hnil] at ho
          cases ho
        · exact diagnosis_behind signs (.binary op left) ih.2 hleaves rfl
            (fun rest hbegins => hchain rest budget least left hbegins hle)
            (expression_steady budget (rightStrength_le op) _) (fun e => ih.1 hlast) h

end Parser

end EquationSolver.Formula
