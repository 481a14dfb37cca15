import EquationSolver.Proofs.Formula.Lookahead
import Mathlib.Logic.Function.Iterate

/-!
# The parser step by step

A machine has a place in the tokens, counts the levels that are used up, and keeps the expressions that
wait for others. A step opens an expression, which uses up a level, or closes one and gives its levels
back, or leaves the open expressions as they are. So there are never more of them than levels.
-/

namespace EquationSolver.Formula.Parser

/-! ## The machine -/

def Cursor.ofIndex (tokens : List Token) (index : Nat) : Cursor where
  previous := if index = 0 then none else tokens[index - 1]?
  rest := tokens.drop index

/-- An open expression: how strong its operators must be, and the depth at which it was called. -/
structure Frame where
  least : Nat
  entry : Nat

/-- What an open expression has called another one for. -/
inductive Purpose
  | operand (op : UnaryOp)
  | group (opening : Token)
  | argument (function : Builtin) (opening : Token)
  | right (op : BinaryOp) (left : Node)

/-- What comes next in a run. -/
inductive Stage
  | call (least : Nat)
  /-- The innermost expression reads its first operand. -/
  | operand (frame : Frame)
  /-- The innermost expression has a left operand and looks for an operator. -/
  | operators (frame : Frame) (left : Node)
  /-- A call is over and its tree is handed back. -/
  | back (tree : Node)
  | refused (error : ParseError)

structure Moment where
  index : Nat
  depth : Nat
  /-- The expressions that have called another one, the last one first. -/
  waiting : List (Frame × Purpose)
  stage : Stage

/-- The expressions that are open, the innermost first. -/
def Moment.frames (m : Moment) : List Frame :=
  match m.stage with
  | .operand frame | .operators frame _ => frame :: m.waiting.map Prod.fst
  | .call _ | .back _ | .refused _ => m.waiting.map Prod.fst

section Steps

variable (tokens : List Token)

/-- Counts one more level, and goes on if there is one. -/
def descend (m : Moment) (onward : Moment → Moment) : Moment :=
  let deeper := { m with depth := m.depth + 1 }
  if deeper.depth ≤ maxDepth then onward deeper
  else { deeper with stage := .refused (tooDeep (.ofIndex tokens m.index)) }

/-- Calls the expression of a group, unless the group is closed at once. -/
def callGroup (m : Moment) : Moment :=
  match tokens[m.index]? with
  | none => { m with stage := .call 0 }
  | some token =>
      { m with stage := if token.closes then .refused (unexpected token) else .call 0 }

def readName (frame : Frame) (name : String) (span : Span) (m : Moment) : Moment :=
  if name = "x" then { m with stage := .operators frame .var }
  else if name = "pi" ∨ name = "π" then { m with stage := .operators frame (.number pi) }
  else if name = "e" then { m with stage := .operators frame (.number eulerNumber) }
  else
    match Builtin.ofName? name with
    | none => { m with stage := .refused (.unknownName name span) }
    | some function =>
        match tokens[m.index]?.filter Token.opens with
        | none => { m with stage := .refused (.missingArgument name span) }
        | some opening =>
            callGroup tokens { m with
              index := m.index + 1
              waiting := (frame, .argument function opening) :: m.waiting }

def readOperand (frame : Frame) (m : Moment) : Moment :=
  match tokens[m.index]? with
  | none =>
      let last := (Cursor.ofIndex tokens m.index).previous
      { m with stage := .refused (.unexpectedEnd (last.elim "" (·.lexeme))) }
  | some token =>
      let behind := { m with index := m.index + 1 }
      let signed (op : UnaryOp) : Moment :=
        { behind with waiting := (frame, .operand op) :: m.waiting, stage := .call UnaryOp.strength }
      match token.kind with
      | .minus => signed .negate
      | .plus => signed .keep
      | .number value => { behind with stage := .operators frame (.number value) }
      | .name name => readName tokens frame name token.span behind
      | .openParen => callGroup tokens { behind with waiting := (frame, .group token) :: m.waiting }
      | .star | .slash | .caret | .closeParen => { behind with stage := .refused (unexpected token) }

/-- Calls the right operand of an operator that is strong enough, or ends the innermost expression and
gives its levels back. -/
def readOperator (frame : Frame) (left : Node) (m : Moment) : Moment :=
  let ended := { m with depth := frame.entry, stage := .back left }
  match (Cursor.ofIndex tokens m.index).operator? with
  | none => ended
  | some (op, spelled) =>
      if op.strength < frame.least then ended
      else
        descend tokens m fun deeper =>
          { deeper with
            index := if spelled then m.index + 1 else m.index
            waiting := (frame, .right op left) :: m.waiting
            stage := .call (rightStrength op) }

def closeGroup (frame : Frame) (opening : Token) (tree : Node) (m : Moment) : Moment :=
  match tokens[m.index]? with
  | none => { m with stage := .refused (.unmatchedOpen opening.span) }
  | some token =>
      if token.closes then { m with index := m.index + 1, stage := .operators frame tree }
      else { m with stage := .refused (unexpected token) }

def resume (frame : Frame) (tree : Node) (m : Moment) : Purpose → Moment
  | .operand op => { m with stage := .operators frame (.unary op tree) }
  | .group opening => closeGroup tokens frame opening tree m
  | .argument function opening => closeGroup tokens frame opening (.call function tree) m
  | .right op left => { m with stage := .operators frame (.binary op left tree) }

def step (m : Moment) : Moment :=
  match m.stage with
  | .call least => descend tokens m fun deeper => { deeper with stage := .operand ⟨least, m.depth⟩ }
  | .operand frame => readOperand tokens frame m
  | .operators frame left => readOperator tokens frame left m
  | .back tree =>
      match m.waiting with
      | [] => m
      | (frame, purpose) :: waiting => resume tokens frame tree { m with waiting := waiting } purpose
  | .refused _ => m

def Reaches (m m' : Moment) : Prop :=
  ∃ n, (step tokens)^[n] m = m'

end Steps

/-- The first moment of a call from outside. -/
def Moment.calling (index depth least : Nat) : Moment :=
  ⟨index, depth, [], .call least⟩

/-- The last moment of a call from outside that hands a tree back. -/
def Moment.answering (index depth : Nat) (tree : Node) : Moment :=
  ⟨index, depth, [], .back tree⟩

def Moment.Over (m : Moment) : Prop :=
  match m.stage with
  | .back _ => m.waiting = []
  | .refused _ => True
  | .call _ | .operand _ | .operators _ _ => False

variable {tokens : List Token} {m m' m'' : Moment} {frame : Frame} {waiting : List (Frame × Purpose)}

/-! ## Open expressions -/

/-- What a step does to the open expressions and to the depth: both stay, an expression is opened or
closed, or the innermost one is refused. -/
inductive Change (m m' : Moment) : Prop
  | same (frames : m'.frames = m.frames) (depth : m.depth ≤ m'.depth)
  | opened (least : Nat) (frames : m'.frames = ⟨least, m.depth⟩ :: m.frames)
      (depth : m'.depth = m.depth + 1) (le : m'.depth ≤ maxDepth)
  | closed (frame : Frame) (frames : m.frames = frame :: m'.frames) (depth : m'.depth = frame.entry)
  | refused (frame : Frame) (frames : m.frames = frame :: m'.frames) (depth : m.depth ≤ m'.depth)

section Changes

variable (hm : m.frames = frame :: waiting.map Prod.fst) (index : Nat)

include hm

private theorem change_operators (tree : Node) :
    Change m ⟨index, m.depth, waiting, .operators frame tree⟩ :=
  .same hm.symm (Nat.le_refl _)

private theorem change_call (purpose : Purpose) (least : Nat) :
    Change m ⟨index, m.depth, (frame, purpose) :: waiting, .call least⟩ :=
  .same hm.symm (Nat.le_refl _)

private theorem change_refused {depth : Nat} (hdepth : m.depth ≤ depth) (e : ParseError) :
    Change m ⟨index, depth, waiting, .refused e⟩ :=
  .refused frame hm hdepth

private theorem change_callGroup (purpose : Purpose) (stage : Stage) :
    Change m (callGroup tokens ⟨index, m.depth, (frame, purpose) :: waiting, stage⟩) := by
  unfold callGroup
  split
  · exact change_call hm index purpose 0
  · next token _ =>
    cases token.closes
    · exact change_call hm index purpose 0
    · exact .same hm.symm (Nat.le_refl _)

private theorem change_readName (name : String) (span : Span) (stage : Stage) :
    Change m (readName tokens frame name span ⟨index, m.depth, waiting, stage⟩) := by
  unfold readName
  split
  · exact change_operators hm index _
  split
  · exact change_operators hm index _
  split
  · exact change_operators hm index _
  split
  · exact change_refused hm index (Nat.le_refl _) _
  split
  · exact change_refused hm index (Nat.le_refl _) _
  · exact change_callGroup hm _ _ _

private theorem change_closeGroup (opening : Token) (tree : Node) (stage : Stage) :
    Change m (closeGroup tokens frame opening tree ⟨index, m.depth, waiting, stage⟩) := by
  unfold closeGroup
  split
  · exact change_refused hm index (Nat.le_refl _) _
  · split
    · exact change_operators hm _ tree
    · exact change_refused hm index (Nat.le_refl _) _

end Changes

private theorem change_readOperand (h : m.stage = .operand frame) :
    Change m (readOperand tokens frame m) := by
  have hm : m.frames = frame :: m.waiting.map Prod.fst := by simp only [Moment.frames, h]
  unfold readOperand
  split
  · exact change_refused hm _ (Nat.le_refl _) _
  · split
    · exact change_call hm _ _ _
    · exact change_call hm _ _ _
    · exact change_operators hm _ _
    · exact change_readName hm _ _ _ _
    · exact change_callGroup hm _ _ _
    all_goals exact change_refused hm _ (Nat.le_refl _) _

theorem descend_of_le {onward : Moment → Moment} (h : m.depth + 1 ≤ maxDepth) :
    descend tokens m onward = onward { m with depth := m.depth + 1 } :=
  if_pos h

theorem descend_of_lt {onward : Moment → Moment} (h : maxDepth < m.depth + 1) :
    descend tokens m onward =
      ⟨m.index, m.depth + 1, m.waiting, .refused (tooDeep (.ofIndex tokens m.index))⟩ :=
  if_neg (Nat.not_le_of_lt h)

private theorem change_readOperator {left : Node} (h : m.stage = .operators frame left) :
    Change m (readOperator tokens frame left m) := by
  have hm : m.frames = frame :: m.waiting.map Prod.fst := by simp only [Moment.frames, h]
  unfold readOperator
  split
  · exact .closed frame hm rfl
  · split
    · exact .closed frame hm rfl
    · rcases Nat.lt_or_ge maxDepth (m.depth + 1) with hlt | hle
      · rw [descend_of_lt hlt]
        exact change_refused hm _ (Nat.le_succ _) _
      · rw [descend_of_le hle]
        exact .same hm.symm (Nat.le_succ _)

private theorem change_step (m : Moment) : Change m (step tokens m) := by
  obtain ⟨index, depth, waiting, stage⟩ := m
  cases stage with
  | call least =>
    simp only [step]
    rcases Nat.lt_or_ge maxDepth (depth + 1) with hlt | hle
    · rw [descend_of_lt hlt]
      exact .same rfl (Nat.le_succ _)
    · rw [descend_of_le hle]
      exact .opened least rfl rfl hle
  | operand frame => exact change_readOperand rfl
  | operators frame left => exact change_readOperator rfl
  | refused e => exact .same rfl (Nat.le_refl _)
  | back tree =>
    rcases waiting with _ | ⟨⟨frame, purpose⟩, waiting⟩
    · exact .same rfl (Nat.le_refl _)
    · have hm : Moment.frames ⟨index, depth, (frame, purpose) :: waiting, .back tree⟩ =
          frame :: waiting.map Prod.fst := rfl
      cases purpose with
      | operand op => exact change_operators hm _ _
      | right op left => exact change_operators hm _ _
      | group opening => exact change_closeGroup hm _ _ _ _
      | argument function opening => exact change_closeGroup hm _ _ _ _

/-- Whether open expressions were called one inside the other, the outermost one at a depth `base` or
below it, and the innermost one above a depth. -/
inductive Nested (base : Nat) : List Frame → Nat → Prop
  | nil {depth : Nat} (h : base ≤ depth) : Nested base [] depth
  | cons {frame : Frame} {frames : List Frame} {depth : Nat} (outer : Nested base frames frame.entry)
      (deeper : frame.entry < depth) : Nested base (frame :: frames) depth

variable {base depth depth' : Nat} {frames : List Frame}

private theorem Nested.mono (h : Nested base frames depth) (hle : depth ≤ depth') :
    Nested base frames depth' := by
  cases h with
  | nil h => exact .nil (Nat.le_trans h hle)
  | cons outer deeper => exact .cons outer (Nat.lt_of_lt_of_le deeper hle)

/-- Every open expression has used up a level of its own. -/
theorem Nested.length_le (h : Nested base frames depth) : base + frames.length ≤ depth := by
  induction h with
  | nil h => exact h
  | cons _ deeper ih =>
    rw [List.length_cons]
    omega

/-- What holds at every moment of a run that was begun at a depth. -/
structure Bounded (base : Nat) (m : Moment) : Prop where
  nested : Nested base m.frames m.depth
  length_le : m.frames.length ≤ maxDepth - base

private theorem Bounded.change (h : Bounded base m) (hchange : Change m m') : Bounded base m' := by
  obtain ⟨hnested, hlength⟩ := h
  cases hchange with
  | same hframes hdepth =>
    rw [← hframes] at hnested hlength
    exact ⟨hnested.mono hdepth, hlength⟩
  | opened least hframes hdepth hle =>
    have hused := hnested.length_le
    refine ⟨?_, ?_⟩
    · rw [hframes]
      exact .cons hnested (by rw [hdepth]; exact Nat.lt_succ_self _)
    · rw [hframes, List.length_cons]
      omega
  | closed frame hframes hdepth =>
    rw [hframes] at hnested hlength
    cases hnested with
    | cons outer _ => exact ⟨hdepth ▸ outer, Nat.le_of_succ_le hlength⟩
  | refused frame hframes hdepth =>
    rw [hframes] at hnested hlength
    cases hnested with
    | cons outer deeper =>
      exact ⟨outer.mono (Nat.le_trans (Nat.le_of_lt deeper) hdepth), Nat.le_of_succ_le hlength⟩

theorem Bounded.run (h : Bounded base m) (n : Nat) : Bounded base ((step tokens)^[n] m) := by
  induction n with
  | zero => exact h
  | succ n ih =>
    rw [Function.iterate_succ_apply']
    exact ih.change (change_step _)

theorem bounded_calling (index depth least : Nat) : Bounded depth (.calling index depth least) :=
  ⟨.nil (Nat.le_refl _), Nat.zero_le _⟩

end EquationSolver.Formula.Parser
