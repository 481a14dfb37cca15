import EquationSolver.Proofs.Formula.Grammar

/-!
# Reading what is derived

A derivation tells for every budget of levels what the parser does on its tokens: within the levels of
the derivation it reads the tree, and otherwise it runs out of levels, wherever the tokens stand and
whatever comes behind them.
-/

namespace EquationSolver.Formula

open Grammar EquationSolver.Formula.Parser

namespace Parser

/-! ## Cursors -/

theorem closes_iff {token : Token} : token.closes = true ↔ token.kind = .closeParen := by
  simp only [Token.closes]
  split <;> simp_all

/-- Whether the operator at a cursor, if there is one, binds more weakly than a strength. -/
def Stops (least : Nat) (here : Cursor) : Prop :=
  ∀ op spelled, here.operator? = some (op, spelled) → op.strength < least

theorem Stops.mono {least greater : Nat} {here : Cursor} (h : Stops least here)
    (hle : least ≤ greater) : Stops greater here :=
  fun op spelled ho => Nat.lt_of_lt_of_le (h op spelled ho) hle

theorem Stops.of_pow {here : Cursor} (h : Stops 5 here) : Stops 4 here := by
  intro op spelled ho
  have hlt := h op spelled ho
  cases op <;> simp_all [BinaryOp.strength]

theorem stops_of_operator?_eq_none {least : Nat} {here : Cursor} (h : here.operator? = none) :
    Stops least here := by
  intro op spelled ho
  rw [h] at ho
  cases ho

theorem stops_end (least : Nat) (last : Option Token) : Stops least ⟨last, []⟩ :=
  stops_of_operator?_eq_none rfl

theorem stops_of_operator? {least : Nat} {here : Cursor} {op : BinaryOp} {spelled : Bool}
    (ho : here.operator? = some (op, spelled)) (hlt : op.strength < least) : Stops least here := by
  intro op' spelled' ho'
  rw [ho] at ho'
  cases ho'
  exact hlt

theorem stops_atom (here : Cursor) : Stops 6 here := by
  intro op _ _
  cases op <;> decide

theorem operator?_spelled {op : BinaryOp} {sign : Token} {rest : List Token} {last : Option Token}
    (h : sign.kind = op.kind) :
    Cursor.operator? ⟨last, sign :: rest⟩ = some (op, true) := by
  cases op <;> simp [Cursor.operator?, h, BinaryOp.kind]

theorem operator?_juxtaposed {first : Token} {rest : List Token} {last : Option Token}
    (h : Juxtaposed last first) : Cursor.operator? ⟨last, first :: rest⟩ = some (.mul, false) := by
  unfold Juxtaposed at h
  split at h
  · next hk => simp [Cursor.operator?, hk]
  · next hk => simp [Cursor.operator?, hk]
  · next hk =>
    obtain ⟨token, hmem, hclose⟩ := h
    simp [Cursor.operator?, hk, Option.mem_def.mp hmem, Token.closes, hclose]
  · exact h.elim

theorem operator?_closeParen {closing : Token} {rest : List Token} {last : Option Token}
    (h : closing.kind = .closeParen) : Cursor.operator? ⟨last, closing :: rest⟩ = none := by
  simp [Cursor.operator?, h]

theorem operator?_eq_some {here : Cursor} {op : BinaryOp} {spelled : Bool}
    (h : here.operator? = some (op, spelled)) :
    ∃ token rest, here.rest = token :: rest ∧
      (spelled = true ∧ token.kind = op.kind ∨
        spelled = false ∧ op = .mul ∧ Juxtaposed here.previous token) := by
  obtain ⟨last, _ | ⟨token, rest⟩⟩ := here
  · cases h
  refine ⟨token, rest, rfl, ?_⟩
  simp only [Cursor.operator?] at h
  cases hk : token.kind with
  | plus | minus | star | slash | caret =>
    simp only [hk] at h
    cases h
    exact .inl ⟨rfl, rfl⟩
  | name text | openParen =>
    simp only [hk] at h
    cases h
    exact .inr ⟨rfl, rfl, by simp [Juxtaposed, hk]⟩
  | number value =>
    simp only [hk] at h
    split at h
    · next hprev =>
      cases h
      obtain ⟨closing, hmem, hclose⟩ := (Option.any_eq_true _ _).mp hprev
      refine .inr ⟨rfl, rfl, ?_⟩
      simp only [Juxtaposed, hk]
      exact ⟨closing, hmem, closes_iff.mp hclose⟩
    · cases h
  | closeParen =>
    simp only [hk] at h
    cases h

/-! ## Budgets -/

def TooDeep {α : Type} (result : Except ParseError α) : Prop :=
  ∃ span, result = .error (.tooDeep maxDepth span)

private theorem tooDeep_error {α : Type} (here : Cursor) :
    TooDeep (.error (tooDeep here) : Except ParseError α) :=
  ⟨_, rfl⟩

theorem TooDeep.bind {α β : Type} {result : Except ParseError α} (h : TooDeep result)
    (f : α → Except ParseError β) : TooDeep (result.bind f) := by
  obtain ⟨span, rfl⟩ := h
  exact ⟨span, rfl⟩

/-- Whether a run over budgets comes to the results of another one from a number of levels on, and
is too deep below it. -/
def Takes {α : Type} (levels : Nat) (run result : Nat → Except ParseError α) : Prop :=
  ∀ budget, (levels ≤ budget → run budget = result budget) ∧ (budget < levels → TooDeep (run budget))

theorem chain_of_stops {least : Nat} {here : Cursor} (h : Stops least here) (budget : Nat)
    (left : Node) : chain budget least left here = .ok (left, here) := by
  cases budget <;>
  · simp only [chain]
    split
    · rfl
    · next op spelled ho => rw [if_pos (h op spelled ho)]

private theorem takes_chain {levels least : Nat} {op : BinaryOp} {spelled : Bool} {here after : Cursor}
    {left right : Node} (ho : here.operator? = some (op, spelled)) (hle : least ≤ op.strength)
    (hr : Takes levels
      (fun budget => expression budget (rightStrength op) (if spelled then here.skip else here))
      fun _ => .ok (right, after)) :
    Takes (levels + 1) (fun budget => chain budget least left here)
      fun budget => chain (budget - 1) least (.binary op left right) after := by
  intro budget
  cases budget with
  | zero =>
    constructor
    · simp
    · intro _
      simp only [chain, ho]
      rw [if_neg (by omega)]
      exact tooDeep_error here
  | succ budget =>
    simp only [chain, ho]
    rw [if_neg (by omega)]
    constructor
    · intro h
      simp only [(hr budget).1 (by omega), Except.bind, Nat.add_sub_cancel]
    · intro h
      exact ((hr budget).2 (by omega)).bind _

/-- A run that has come to the chain behind its left operand goes on behind one more operator and its
right operand. -/
theorem Takes.operator {first second spine inner least : Nat} {op : BinaryOp} {spelled : Bool}
    {here after : Cursor} {left right : Node} {run : Nat → Result}
    (hl : Takes first run fun budget => chain (budget - 1 - spine) least left here)
    (ho : here.operator? = some (op, spelled)) (hle : least ≤ op.strength)
    (hr : Takes second
      (fun budget => expression budget (rightStrength op) (if spelled then here.skip else here))
      fun budget => chain (budget - 1 - inner) (rightStrength op) right after)
    (hs : Stops (rightStrength op) after) :
    Takes (max first (spine + 2 + second)) run
      fun budget => chain (budget - 1 - (spine + 1)) least (.binary op left right) after := by
  have hstep : Takes (second + 1) (fun budget => chain budget least left here)
      fun budget => chain (budget - 1) least (.binary op left right) after := by
    apply takes_chain ho hle
    intro budget
    constructor
    · intro hb
      exact ((hr budget).1 hb).trans (chain_of_stops hs _ right)
    · exact (hr budget).2
  intro budget
  constructor
  · intro hb
    have hnext := (hstep (budget - 1 - spine)).1 (by omega)
    rw [(hl budget).1 (by omega)]
    simpa only [Nat.sub_sub, Nat.add_assoc] using hnext
  · intro hb
    by_cases hf : budget < first
    · exact (hl budget).2 hf
    · rw [(hl budget).1 (by omega)]
      exact (hstep _).2 (by omega)

private theorem takes_expression {levels least : Nat} {here after : Cursor} {t : Node}
    (h : Takes levels (fun budget => operand (expression budget) here) fun _ => .ok (t, after)) :
    Takes (levels + 1) (fun budget => expression budget least here)
      fun budget => chain (budget - 1 - 0) least t after := by
  intro budget
  cases budget with
  | zero => exact ⟨by simp, fun _ => tooDeep_error here⟩
  | succ budget =>
    simp only [expression]
    constructor
    · intro hb
      simp only [(h budget).1 (by omega), Except.bind, Nat.add_sub_cancel, Nat.sub_zero]
    · intro hb
      exact ((h budget).2 (by omega)).bind _

private theorem Takes.bind_ok {levels : Nat} {run : Nat → Result} {r s : Node × Cursor}
    {f : Node × Cursor → Result} (h : Takes levels run fun _ => .ok r) (hf : f r = .ok s) :
    Takes levels (fun budget => (run budget).bind f) fun _ => .ok s := by
  intro budget
  constructor
  · intro hb
    simp only [(h budget).1 hb, Except.bind, hf]
  · intro hb
    exact ((h budget).2 hb).bind f

private theorem takes_group {levels : Nat} {ts rest : List Token} {opening closing : Token} {t : Node}
    (hfirst : ∃ first us, ts = first :: us ∧ first.closes = false)
    (hclose : closing.kind = .closeParen)
    (h : Takes levels (fun budget => expression budget 0 ⟨some opening, ts ++ closing :: rest⟩)
      fun _ => .ok (t, ⟨ts.getLast?, closing :: rest⟩)) :
    Takes levels (fun budget => group (expression budget) opening ⟨some opening, ts ++ closing :: rest⟩)
      fun _ => .ok (t, ⟨some closing, rest⟩) := by
  obtain ⟨first, us, rfl, hf⟩ := hfirst
  simp only [group, List.cons_append, List.head?_cons, hf]
  apply Takes.bind_ok h
  simp [close, closes_iff.mpr hclose, Cursor.skip]

private theorem takes_inner {levels spine : Nat} {ts rest : List Token} {opening closing : Token} {t : Node}
    (hclose : closing.kind = .closeParen)
    (hfirst : ∃ first us, ts = first :: us ∧ first.closes = false)
    (h : Takes levels (fun budget => expression budget 0 ⟨some opening, ts ++ closing :: rest⟩)
      fun budget => chain (budget - 1 - spine) 0 t ⟨ts.getLast?, closing :: rest⟩) :
    Takes levels (fun budget => group (expression budget) opening ⟨some opening, ts ++ closing :: rest⟩)
      fun _ => .ok (t, ⟨some closing, rest⟩) := by
  apply takes_group hfirst hclose
  intro budget
  constructor
  · intro hb
    exact ((h budget).1 hb).trans
      (chain_of_stops (stops_of_operator?_eq_none (operator?_closeParen hclose)) _ t)
  · exact (h budget).2

theorem operand_sign {op : UnaryOp} {sign : Token} (h : sign.kind = op.kind)
    (inner : Nat → Cursor → Result) (last : Option Token) (rest : List Token) :
    operand inner ⟨last, sign :: rest⟩ =
      (inner UnaryOp.strength ⟨some sign, rest⟩).bind fun (tree, after) =>
        .ok (.unary op tree, after) := by
  cases op <;> simp [operand, operand.signed, h, UnaryOp.kind, Cursor.skip]

theorem named_call {name : String} {function : Builtin} {opening : Token}
    (known : Builtin.ofName? name = some function) (opens : opening.kind = .openParen)
    (inner : Nat → Cursor → Result) (span : Span) (last : Option Token) (rest : List Token) :
    named inner name span ⟨last, opening :: rest⟩ =
      (group inner opening ⟨some opening, rest⟩).bind fun (argument, after) =>
        .ok (.call function argument, after) := by
  obtain ⟨kind, place, lexeme⟩ := opening
  cases opens
  obtain rfl := Builtin.name_of_ofName? known
  rw [named, known]
  cases function <;> simp [Builtin.name, Cursor.skip]

end Parser

namespace Grammar

/-- The strength below which the operator behind a phrase must bind for the phrase to end there. -/
def Phrase.limit : Phrase → Nat
  | .sum => 3
  | .product | .signed | .power => 4
  | .atom => 6

/-- The greatest strength that a place may ask of its operators if it is to take a phrase. -/
def Phrase.reach : Phrase → Nat
  | .sum => 2
  | .product => 3
  | .signed | .power | .atom => 5

theorem getLast?_append_cons {ts us : List Token} (sign : Token) (h : us ≠ []) :
    (ts ++ sign :: us).getLast? = us.getLast? := by
  simp [List.getLast?_append, List.getLast?_cons, List.getLast?_eq_some_getLast h]

private theorem takes_spelled {ts us rest : List Token} {sign : Token} {op : BinaryOp} {a b : Node}
    {first second spine inner least : Nat} {run : Nat → Result} (spelled : sign.kind = op.kind)
    (hne : us ≠ []) (hle : least ≤ op.strength)
    (hl : Takes first run
      fun budget => chain (budget - 1 - spine) least a ⟨ts.getLast?, sign :: (us ++ rest)⟩)
    (hr : Takes second (fun budget => expression budget (rightStrength op) ⟨some sign, us ++ rest⟩)
      fun budget => chain (budget - 1 - inner) (rightStrength op) b ⟨us.getLast?, rest⟩)
    (hs : Stops (rightStrength op) ⟨us.getLast?, rest⟩) :
    Takes (max first (spine + 2 + second)) run
      fun budget => chain (budget - 1 - (spine + 1)) least (.binary op a b)
        ⟨(ts ++ sign :: us).getLast?, rest⟩ := by
  rw [getLast?_append_cons sign hne]
  exact hl.operator (operator?_spelled spelled) hle hr hs

/-- Reading a derived phrase comes to the chain behind it with its tree on the left, from the
phrase's levels on, and is too deep below them. -/
theorem Derivation.takes {p : Phrase} {ts : List Token} {t : Node} (d : Derivation p ts t)
    {least : Nat} (hle : least ≤ p.reach) (last : Option Token) (rest : List Token)
    (hs : Stops p.limit ⟨ts.getLast?, rest⟩) :
    Takes d.levels (fun budget => expression budget least ⟨last, ts ++ rest⟩)
      fun budget => chain (budget - 1 - d.spine) least t ⟨ts.getLast?, rest⟩ := by
  -- By induction on the derivation. What follows the phrase is left open, since an operator that
  -- ends its left operand is what the operand's hypothesis is used in front of.
  induction d generalizing least last rest with
  | ofProduct d ih => exact ih (Nat.le_succ_of_le hle) last rest (hs.mono (by decide))
  | ofSigned d ih => exact ih (Nat.le_trans hle (by decide)) last rest hs
  | ofPower d ih => exact ih hle last rest hs
  | ofAtom d ih => exact ih hle last rest (stops_atom _)
  | @sum ts us a b sign op additive left spelled right ihl ihr =>
    have hleft := ihl hle last (sign :: (us ++ rest))
      (stops_of_operator? (operator?_spelled spelled) (by rcases additive with rfl | rfl <;> decide))
    have hstops : Stops 3 ⟨us.getLast?, rest⟩ := by rwa [getLast?_append_cons sign right.ne_nil] at hs
    have hproduct : Stops 4 ⟨us.getLast?, rest⟩ := hstops.mono (by decide)
    rw [List.append_assoc, List.cons_append]
    rcases additive with rfl | rfl
    · exact takes_spelled spelled right.ne_nil hle hleft (ihr (by decide) _ _ hproduct) hstops
    · exact takes_spelled spelled right.ne_nil hle hleft (ihr (by decide) _ _ hproduct) hstops
  | @product ts us a b sign op multiplicative left spelled right ihl ihr =>
    have hleft := ihl hle last (sign :: (us ++ rest))
      (stops_of_operator? (operator?_spelled spelled)
        (by rcases multiplicative with rfl | rfl <;> decide))
    have hstops : Stops 4 ⟨us.getLast?, rest⟩ := by rwa [getLast?_append_cons sign right.ne_nil] at hs
    rw [List.append_assoc, List.cons_append]
    rcases multiplicative with rfl | rfl
    · exact takes_spelled spelled right.ne_nil hle hleft (ihr (by decide) _ _ hstops) hstops
    · exact takes_spelled spelled right.ne_nil hle hleft (ihr (by decide) _ _ hstops) hstops
  | @juxtaposed ts us a b first left meet right ihl ihr =>
    have hlast : (ts ++ first :: us).getLast? = (first :: us).getLast? := by
      simp [List.getLast?_append, List.getLast?_cons]
    rw [hlast] at hs ⊢
    have hop : Cursor.operator? ⟨ts.getLast?, first :: us ++ rest⟩ = some (.mul, false) :=
      operator?_juxtaposed meet
    have hleft := ihl hle last _ (stops_of_operator? hop (by decide))
    rw [List.append_assoc]
    exact hleft.operator hop hle (ihr (by decide) ts.getLast? rest hs) hs
  | @power ts us a b sign base spelled exponent ihl ihr =>
    have hpow : sign.kind = BinaryOp.pow.kind := spelled
    have hleft := ihl hle last (sign :: (us ++ rest))
      (stops_of_operator? (operator?_spelled hpow) (by decide))
    have hstops : Stops 4 ⟨us.getLast?, rest⟩ := by rwa [getLast?_append_cons sign exponent.ne_nil] at hs
    rw [List.append_assoc, List.cons_append]
    exact takes_spelled hpow exponent.ne_nil hle hleft (ihr (by decide) _ _ hstops)
      (hstops.mono (by decide))
  | @signed ts t sign op spelled d ih =>
    rw [List.getLast?_cons_of_ne_nil d.ne_nil] at hs ⊢
    apply takes_expression
    simp only [List.cons_append, operand_sign spelled]
    have hinner := ih (show UnaryOp.strength ≤ 5 by decide) (some sign) rest hs
    have hread : Takes d.levels (fun budget => expression budget UnaryOp.strength ⟨some sign, ts ++ rest⟩)
        fun _ => .ok (t, ⟨ts.getLast?, rest⟩) := by
      intro budget
      constructor
      · intro hb
        exact ((hinner budget).1 hb).trans (chain_of_stops hs _ t)
      · exact (hinner budget).2
    exact hread.bind_ok rfl
  | number h =>
    apply takes_expression
    intro budget
    simp [operand, h, Cursor.skip]
  | var h =>
    apply takes_expression
    intro budget
    simp [operand, h, Cursor.skip, named]
  | pi h hname =>
    apply takes_expression
    intro budget
    rcases hname with rfl | rfl <;> simp [operand, h, Cursor.skip, named]
  | euler h =>
    apply takes_expression
    intro budget
    simp [operand, h, Cursor.skip, named]
  | @group ts t opening closing opens inner closes ih =>
    have hgroup := takes_inner closes inner.exists_first (ih (by decide) (some opening)
      (closing :: rest) (stops_of_operator?_eq_none (operator?_closeParen closes)))
    apply takes_expression
    simpa [operand, opens, Cursor.skip, List.getLast?_cons, List.getLast?_append] using hgroup
  | @call ts t token name opening closing function h known opens inner closes ih =>
    have hgroup := takes_inner closes inner.exists_first (ih (by decide) (some opening)
      (closing :: rest) (stops_of_operator?_eq_none (operator?_closeParen closes)))
    have hcall := hgroup.bind_ok
      (f := fun (argument, after) => .ok (.call function argument, after)) rfl
    apply takes_expression
    simpa [operand, h, Cursor.skip, named_call known opens, List.getLast?_cons,
      List.getLast?_append] using hcall

end Grammar

end EquationSolver.Formula
