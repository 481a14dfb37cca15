import EquationSolver.Proofs.Formula.Machine

/-!
# Runs that realize the parser

From every moment at which an expression is called, the machine comes to what the parser reads within
the levels that are left: with the tree to the moment behind the expression, at the depth of the call,
or to the refusal. Each part of the parser has its steps.
-/

namespace EquationSolver.Formula.Parser

variable {tokens : List Token} {m m' m'' : Moment} {frame : Frame} {waiting : List (Frame × Purpose)}

private theorem Reaches.trans (h : Reaches tokens m m') (h' : Reaches tokens m' m'') :
    Reaches tokens m m'' := by
  obtain ⟨n, rfl⟩ := h
  obtain ⟨k, rfl⟩ := h'
  exact ⟨k + n, Function.iterate_add_apply _ k n m⟩

private theorem reaches_refl (m : Moment) : Reaches tokens m m :=
  ⟨0, rfl⟩

private theorem reaches_step (m : Moment) : Reaches tokens m (step tokens m) :=
  ⟨1, rfl⟩

/-- Whether a run from a moment comes to the result of a reading: with a tree and a place in the tokens to
the moment that goes on from there, or to a refusal. -/
inductive Realizes (tokens : List Token) (m : Moment) (onward : Nat → Node → Moment) : Result → Prop
  | read {index : Nat} {tree : Node} (le : index ≤ tokens.length)
      (reaches : Reaches tokens m (onward index tree)) :
      Realizes tokens m onward (.ok (tree, .ofIndex tokens index))
  | refused {m' : Moment} {e : ParseError} (stage : m'.stage = .refused e) (reaches : Reaches tokens m m') :
      Realizes tokens m onward (.error e)

variable {onward onward' : Nat → Node → Moment} {result : Result} {index least budget : Nat}

private theorem Realizes.of_reaches (h : Realizes tokens m' onward result)
    (hreaches : Reaches tokens m m') :
    Realizes tokens m onward result := by
  cases h with
  | read hle h => exact .read hle (hreaches.trans h)
  | refused hstage h => exact .refused hstage (hreaches.trans h)

private theorem Realizes.of_step (h : Realizes tokens (step tokens m) onward result) :
    Realizes tokens m onward result :=
  h.of_reaches (reaches_step m)

private theorem realizes_refused {e : ParseError} (h : m.stage = .refused e) :
    Realizes tokens m onward (.error e) :=
  .refused h (reaches_refl m)

/-- Readings one behind the other are runs one behind the other. -/
theorem Realizes.bind {next : Node × Cursor → Result} (h : Realizes tokens m onward result)
    (hnext : ∀ index tree, index ≤ tokens.length →
      Realizes tokens (onward index tree) onward' (next (tree, .ofIndex tokens index))) :
    Realizes tokens m onward' (result.bind next) := by
  cases h with
  | read hle h => exact (hnext _ _ hle).of_reaches h
  | refused hstage h => exact .refused hstage h

private theorem ofIndex_cases (tokens : List Token) (index : Nat) :
    (tokens[index]? = none ∧ ∃ last, Cursor.ofIndex tokens index = ⟨last, []⟩) ∨
      ∃ token, tokens[index]? = some token ∧ index + 1 ≤ tokens.length ∧
        ∃ last rest, Cursor.ofIndex tokens index = ⟨last, token :: rest⟩ ∧
          Cursor.ofIndex tokens (index + 1) = ⟨some token, rest⟩ := by
  rcases Nat.lt_or_ge index tokens.length with hlt | hge
  · refine .inr ⟨tokens[index], List.getElem?_eq_getElem hlt, hlt,
      (Cursor.ofIndex tokens index).previous, tokens.drop (index + 1), ?_, ?_⟩
    · simp [Cursor.ofIndex, ← List.drop_eq_getElem_cons hlt]
    · simp [Cursor.ofIndex, List.getElem?_eq_getElem hlt]
  · exact .inl ⟨List.getElem?_eq_none hge, _, by rw [Cursor.ofIndex, List.drop_eq_nil_of_le hge]⟩

private theorem ofIndex_operator {op : BinaryOp} {spelled : Bool}
    (h : (Cursor.ofIndex tokens index).operator? = some (op, spelled)) :
    (if spelled then (Cursor.ofIndex tokens index).skip else .ofIndex tokens index) =
        .ofIndex tokens (if spelled then index + 1 else index) ∧
      (if spelled then index + 1 else index) ≤ tokens.length := by
  rcases ofIndex_cases tokens index with ⟨-, last, hhere⟩ |
    ⟨token, -, hle, last, rest, hhere, hbehind⟩
  · rw [hhere] at h
    cases h
  · cases spelled with
    | true => exact ⟨by rw [if_pos rfl, if_pos rfl, hhere, hbehind]; rfl, hle⟩
    | false => exact ⟨rfl, Nat.le_of_succ_le hle⟩

private theorem bind_assoc {α β γ : Type} (result : Except ParseError α) (f : α → Except ParseError β)
    (g : β → Except ParseError γ) : (result.bind f).bind g = result.bind fun a => (f a).bind g := by
  cases result <;> rfl

def wrapped (wrap : Node → Node) (read : Node × Cursor) : Result :=
  .ok (wrap read.1, read.2)

private theorem bind_wrapped_id (result : Result) : result.bind (wrapped id) = result := by
  cases result <;> rfl

private theorem realizes_closeGroup (m : Moment) (frame : Frame) (opening : Token) (wrap : Node → Node)
    (tree : Node) :
    Realizes tokens (closeGroup tokens frame opening (wrap tree) m)
      (fun index t => ⟨index, m.depth, m.waiting, .operators frame t⟩)
      ((close opening tree (.ofIndex tokens m.index)).bind (wrapped wrap)) := by
  unfold closeGroup
  rcases ofIndex_cases tokens m.index with ⟨hnone, last, hhere⟩ |
    ⟨token, hsome, hle', last, rest, hhere, hbehind⟩
  · rw [hnone, hhere]
    exact realizes_refused rfl
  · rw [hsome, hhere]
    cases hcloses : token.closes with
    | true =>
      simp only [close, hcloses, if_true, Cursor.skip, ← hbehind]
      exact .read hle' (reaches_refl _)
    | false =>
      simp only [close, hcloses]
      exact realizes_refused rfl

section Operands

variable {inner : Nat → Cursor → Result} {depth : Nat}
  (hinner : ∀ least index waiting, index ≤ tokens.length →
    Realizes tokens ⟨index, depth, waiting, .call least⟩ (fun index t => ⟨index, depth, waiting, .back t⟩)
      (inner least (.ofIndex tokens index)))

include hinner

private theorem realizes_callGroup {purpose : Purpose} {opening : Token} {wrap : Node → Node}
    (hresume : ∀ tree m, resume tokens frame tree m purpose = closeGroup tokens frame opening (wrap tree) m)
    (hle : index ≤ tokens.length) (stage : Stage) :
    Realizes tokens (callGroup tokens ⟨index, depth, (frame, purpose) :: waiting, stage⟩)
      (fun index t => ⟨index, depth, waiting, .operators frame t⟩)
      ((group inner opening (.ofIndex tokens index)).bind (wrapped wrap)) := by
  have hbody : Realizes tokens ⟨index, depth, (frame, purpose) :: waiting, .call 0⟩
      (fun index t => ⟨index, depth, waiting, .operators frame t⟩)
      (((inner 0 (.ofIndex tokens index)).bind fun read => close opening read.1 read.2).bind
        (wrapped wrap)) := by
    rw [bind_assoc]
    refine (hinner 0 index _ hle).bind fun index tree _ => .of_step ?_
    simp only [step, hresume]
    exact realizes_closeGroup _ frame opening wrap tree
  unfold callGroup
  rcases ofIndex_cases tokens index with ⟨hnone, last, hhere⟩ |
    ⟨token, hsome, -, last, rest, hhere, -⟩
  · rw [hhere] at hbody ⊢
    simpa only [hnone, group, List.head?_nil] using hbody
  · rw [hhere] at hbody ⊢
    cases hcloses : token.closes with
    | true =>
      simp only [hsome, group, List.head?_cons, hcloses, if_true]
      exact realizes_refused rfl
    | false =>
      simpa only [hsome, group, List.head?_cons, hcloses, Bool.false_eq_true, if_false] using hbody

private theorem realizes_readName (hle : index ≤ tokens.length) (name : String) (span : Span)
    (stage : Stage) :
    Realizes tokens (readName tokens frame name span ⟨index, depth, waiting, stage⟩)
      (fun index t => ⟨index, depth, waiting, .operators frame t⟩)
      (named inner name span (.ofIndex tokens index)) := by
  unfold readName named
  by_cases hx : name = "x"
  · rw [if_pos hx, if_pos hx]
    exact .read hle (reaches_refl _)
  rw [if_neg hx, if_neg hx]
  by_cases hpi : name = "pi" ∨ name = "π"
  · rw [if_pos hpi, if_pos hpi]
    exact .read hle (reaches_refl _)
  rw [if_neg hpi, if_neg hpi]
  by_cases he : name = "e"
  · rw [if_pos he, if_pos he]
    exact .read hle (reaches_refl _)
  rw [if_neg he, if_neg he]
  cases Builtin.ofName? name with
  | none => exact realizes_refused rfl
  | some function =>
    rcases ofIndex_cases tokens index with ⟨hnone, last, hhere⟩ |
      ⟨⟨kind, place, lexeme⟩, hsome, hle', last, rest, hhere, hbehind⟩
    · simp only [hnone, hhere, Option.filter_none]
      exact realizes_refused rfl
    · cases kind with
      | openParen =>
        simp only [hsome, hhere, Option.filter_some, Token.opens, if_true, Cursor.skip, ← hbehind]
        exact realizes_callGroup hinner (fun _ _ => rfl) hle' stage
      | number | name | plus | minus | star | slash | caret | closeParen =>
        simp only [hsome, hhere, Option.filter_some, Token.opens]
        exact realizes_refused rfl

private theorem realizes_readOperand (index : Nat) (stage : Stage) :
    Realizes tokens (readOperand tokens frame ⟨index, depth, waiting, stage⟩)
      (fun index t => ⟨index, depth, waiting, .operators frame t⟩)
      (operand inner (.ofIndex tokens index)) := by
  unfold readOperand
  rcases ofIndex_cases tokens index with ⟨hnone, last, hhere⟩ |
    ⟨token, hsome, hle', last, rest, hhere, hbehind⟩
  · simp only [hnone, hhere]
    exact realizes_refused rfl
  · have hsigned : ∀ op, Realizes tokens
        ⟨index + 1, depth, (frame, .operand op) :: waiting, .call UnaryOp.strength⟩
        (fun index t => ⟨index, depth, waiting, .operators frame t⟩)
        (operand.signed inner (.ofIndex tokens index) op) := by
      intro op
      simp only [operand.signed, hhere, Cursor.skip, ← hbehind]
      exact (hinner _ _ _ hle').bind fun index tree hle => .of_step (.read hle (reaches_refl _))
    rw [hhere] at hsigned ⊢
    cases hk : token.kind with
    | minus | plus => simpa only [hsome, operand, hk] using hsigned _
    | number value =>
      simp only [hsome, operand, hk, Cursor.skip, ← hbehind]
      exact .read hle' (reaches_refl _)
    | name name =>
      simp only [hsome, operand, hk, Cursor.skip, ← hbehind]
      exact realizes_readName hinner hle' name token.span stage
    | openParen =>
      simp only [hsome, operand, hk, Cursor.skip, ← hbehind]
      rw [← bind_wrapped_id (group inner token _)]
      exact realizes_callGroup hinner (fun _ _ => rfl) hle' stage
    | star | slash | caret | closeParen =>
      simp only [hsome, operand, hk]
      exact realizes_refused rfl

end Operands

def CallsRealized (tokens : List Token) (budget : Nat) : Prop :=
  ∀ ⦃depth⦄, maxDepth - depth = budget → ∀ least index waiting, index ≤ tokens.length →
    Realizes tokens ⟨index, depth, waiting, .call least⟩ (fun index t => ⟨index, depth, waiting, .back t⟩)
      (expression budget least (.ofIndex tokens index))

/-- Whether every expression that has a left operand comes to what a chain reads, and gives back the
levels that it has used up. -/
def ChainsRealized (tokens : List Token) (budget : Nat) : Prop :=
  ∀ ⦃depth⦄, maxDepth - depth = budget → ∀ frame left index waiting, index ≤ tokens.length →
    Realizes tokens ⟨index, depth, waiting, .operators frame left⟩
      (fun index t => ⟨index, frame.entry, waiting, .back t⟩)
      (chain budget frame.least left (.ofIndex tokens index))

private theorem realized_zero : CallsRealized tokens 0 ∧ ChainsRealized tokens 0 := by
  constructor
  · intro depth hdepth least index waiting _
    refine .of_step ?_
    simp only [step]
    rw [descend_of_lt (show maxDepth < depth + 1 by omega)]
    exact realizes_refused rfl
  · intro depth hdepth frame left index waiting hle
    refine .of_step ?_
    simp only [step, readOperator, chain]
    cases (Cursor.ofIndex tokens index).operator? with
    | none => exact .read hle (reaches_refl _)
    | some next =>
      obtain ⟨op, spelled⟩ := next
      by_cases hlt : op.strength < frame.least
      · simp only [if_pos hlt]
        exact .read hle (reaches_refl _)
      · simp only [if_neg hlt]
        rw [descend_of_lt (show maxDepth < depth + 1 by omega)]
        exact realizes_refused rfl

private theorem realized_succ (ih : CallsRealized tokens budget ∧ ChainsRealized tokens budget) :
    CallsRealized tokens (budget + 1) ∧ ChainsRealized tokens (budget + 1) := by
  constructor
  · intro depth hdepth least index waiting hle
    refine .of_step ?_
    simp only [step]
    rw [descend_of_le (show depth + 1 ≤ maxDepth by omega)]
    have hleft : maxDepth - (depth + 1) = budget := by omega
    have hoperand : Realizes tokens
        (readOperand tokens ⟨least, depth⟩ ⟨index, depth + 1, waiting, .operand ⟨least, depth⟩⟩)
        (fun index t => ⟨index, depth + 1, waiting, .operators ⟨least, depth⟩ t⟩)
        (operand (expression budget) (.ofIndex tokens index)) :=
      realizes_readOperand (ih.1 hleft) index _
    exact .of_step (hoperand.bind fun index tree hle => ih.2 hleft ⟨least, depth⟩ tree index waiting hle)
  · intro depth hdepth frame left index waiting hle
    refine .of_step ?_
    simp only [step, readOperator, chain]
    cases ho : (Cursor.ofIndex tokens index).operator? with
    | none => exact .read hle (reaches_refl _)
    | some next =>
      obtain ⟨op, spelled⟩ := next
      by_cases hlt : op.strength < frame.least
      · simp only [if_pos hlt]
        exact .read hle (reaches_refl _)
      · simp only [if_neg hlt]
        rw [descend_of_le (show depth + 1 ≤ maxDepth by omega)]
        have hleft : maxDepth - (depth + 1) = budget := by omega
        obtain ⟨hbehind, hle'⟩ := ofIndex_operator ho
        rw [hbehind]
        refine (ih.1 hleft _ _ _ hle').bind fun index right hle => .of_step ?_
        exact ih.2 hleft frame (.binary op left right) index waiting hle

theorem realized (tokens : List Token) (budget : Nat) :
    CallsRealized tokens budget ∧ ChainsRealized tokens budget := by
  induction budget with
  | zero => exact realized_zero
  | succ budget ih => exact realized_succ ih

end EquationSolver.Formula.Parser
