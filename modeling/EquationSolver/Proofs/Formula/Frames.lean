import EquationSolver.Proofs.Formula.Realization
import EquationSolver.Proofs.Formula.Window

/-!
# The frames of the parser

What a call of an expression promises, at any place in any tokens and at any depth: it comes to an end
with what the parser reads, and if it answers, then further on, at its own depth, in front of what it
may not take, and whatever stands outside its window.
-/

namespace EquationSolver.Formula.Parser

variable {tokens : List Token} {m m' m'' : Moment} {index least budget : Nat}

private theorem step_of_over (h : m.Over) : step tokens m = m := by
  obtain ⟨index, depth, waiting, stage⟩ := m
  cases stage with
  | back tree =>
    obtain rfl : waiting = [] := h
    rfl
  | refused e => rfl
  | call | operand | operators => exact h.elim

private theorem eq_of_reaches (h : Reaches tokens m m') (h' : Reaches tokens m m'') (hover : m'.Over)
    (hover' : m''.Over) : m' = m'' := by
  obtain ⟨n, rfl⟩ := h
  obtain ⟨k, rfl⟩ := h'
  rcases Nat.le_total n k with hle | hle
  · rw [← Nat.sub_add_cancel hle, Function.iterate_add_apply,
      Function.iterate_fixed (step_of_over hover)]
  · rw [← Nat.sub_add_cancel hle, Function.iterate_add_apply,
      Function.iterate_fixed (step_of_over hover')]

private theorem over_of_refused {e : ParseError} (h : m.stage = .refused e) : m.Over := by
  simp only [Moment.Over, h]

private theorem over_answering (index depth : Nat) (tree : Node) :
    (Moment.answering index depth tree).Over :=
  rfl

private theorem ofIndex_injective {index' : Nat} (hle : index ≤ tokens.length)
    (hle' : index' ≤ tokens.length) (h : Cursor.ofIndex tokens index = .ofIndex tokens index') :
    index = index' := by
  have hlength := congrArg (fun here => here.rest.length) h
  simp only [Cursor.ofIndex, List.length_drop] at hlength
  omega

section Calls

variable (hle : index ≤ tokens.length) (depth least : Nat)

include hle

private theorem realizes_calling : Realizes tokens (.calling index depth least)
    (fun index tree => .answering index depth tree)
    (expression (maxDepth - depth) least (.ofIndex tokens index)) :=
  (realized tokens (maxDepth - depth)).1 rfl least index [] hle

private theorem exists_over : ∃ n, ((step tokens)^[n] (.calling index depth least)).Over := by
  have hreal := realizes_calling hle depth least
  generalize expression (maxDepth - depth) least (.ofIndex tokens index) = result at hreal
  cases hreal with
  | read _ hreaches =>
    obtain ⟨n, hn⟩ := hreaches
    exact ⟨n, hn ▸ over_answering _ _ _⟩
  | refused hstage hreaches =>
    obtain ⟨n, hn⟩ := hreaches
    exact ⟨n, hn ▸ over_of_refused hstage⟩

/-- A call is answered by what an expression reads within the levels that are left, and with the depth
that it was made at. -/
theorem answering_iff {tree : Node} {index' depth' : Nat} :
    Reaches tokens (.calling index depth least) (.answering index' depth' tree) ↔
      expression (maxDepth - depth) least (.ofIndex tokens index) =
          .ok (tree, .ofIndex tokens index') ∧ index' ≤ tokens.length ∧ depth' = depth := by
  have hreal := realizes_calling hle depth least
  generalize expression (maxDepth - depth) least (.ofIndex tokens index) = result at hreal
  cases hreal with
  | @read index₁ tree₁ hle₁ hreaches =>
    constructor
    · intro h
      cases eq_of_reaches hreaches h (over_answering _ _ _) (over_answering _ _ _)
      exact ⟨rfl, hle₁, rfl⟩
    · rintro ⟨hok, hle', rfl⟩
      obtain ⟨rfl, hindex⟩ := Prod.mk.inj (Except.ok.inj hok)
      obtain rfl := ofIndex_injective hle₁ hle' hindex
      exact hreaches
  | refused hstage hreaches =>
    constructor
    · intro h
      obtain rfl := eq_of_reaches hreaches h (over_of_refused hstage) (over_answering _ _ _)
      cases hstage
    · rintro ⟨hok, -⟩
      cases hok

private theorem refused_iff {e : ParseError} :
    (∃ m, Reaches tokens (.calling index depth least) m ∧ m.stage = .refused e) ↔
      expression (maxDepth - depth) least (.ofIndex tokens index) = .error e := by
  have hreal := realizes_calling hle depth least
  generalize expression (maxDepth - depth) least (.ofIndex tokens index) = result at hreal
  cases hreal with
  | read _ hreaches =>
    constructor
    · rintro ⟨m, hm, hstage⟩
      obtain rfl := eq_of_reaches hreaches hm (over_answering _ _ _) (over_of_refused hstage)
      cases hstage
    · rintro ⟨⟩
  | refused hstage hreaches =>
    constructor
    · rintro ⟨m, hm, hstage'⟩
      obtain rfl := eq_of_reaches hreaches hm (over_of_refused hstage) (over_of_refused hstage')
      cases hstage.symm.trans hstage'
      rfl
    · rintro ⟨⟩
      exact ⟨_, hreaches, hstage⟩

end Calls

/-- Whether the same tokens stand from an index on and from another one on, up to and with the one behind
a number of them, or nothing does there. -/
def SameWindow (tokens tokens' : List Token) (index index' count : Nat) : Prop :=
  ∀ i ≤ count, tokens'[index' + i]? = tokens[index + i]?

/-- What is read from some tokens is read wherever they stand. -/
theorem expression_of_sameWindow {index' start budget' : Nat} {tokens' : List Token} {tree : Node}
    (h : expression budget least (.ofIndex tokens index) = .ok (tree, .ofIndex tokens index'))
    (hle : index ≤ tokens.length) (hle' : index' ≤ tokens.length)
    (hsame : SameWindow tokens tokens' index start (index' - index)) (hbudget : budget ≤ budget') :
    index < index' ∧ start + (index' - index) ≤ tokens'.length ∧
      expression budget' least (.ofIndex tokens' start) =
        .ok (tree, .ofIndex tokens' (start + (index' - index))) := by
  obtain ⟨-, us, hne, hts, -, hread⟩ := expression_window h
  simp only [Cursor.ofIndex] at hts
  have hlength : us.length = index' - index := by
    have := congrArg List.length hts
    simp only [List.length_append, List.length_drop] at this
    omega
  have hpos := List.length_pos_iff.mpr hne
  have husAt : ∀ i < us.length, us[i]? = tokens'[start + i]? := by
    intro i hi
    rw [hsame i (by omega), ← List.getElem?_drop, hts, List.getElem?_append_left hi]
  have hlast : tokens'[start + (us.length - 1)]? = us[us.length - 1]? := (husAt _ (by omega)).symm
  have hwithin : start + us.length ≤ tokens'.length := by
    rw [List.getElem?_eq_getElem (show us.length - 1 < us.length by omega)] at hlast
    obtain ⟨hlt, -⟩ := List.getElem?_eq_some_iff.mp hlast
    omega
  have hsplit : tokens'.drop start = us ++ tokens'.drop (start + us.length) := by
    rw [← List.take_append_drop us.length (tokens'.drop start), List.drop_drop]
    congr 1
    apply List.ext_getElem?
    intro i
    rcases Nat.lt_or_ge i us.length with hi | hi
    · rw [List.getElem?_take_of_lt hi, List.getElem?_drop, husAt i hi]
    · rw [List.getElem?_eq_none hi, List.getElem?_eq_none]
      rw [List.length_take]
      omega
  have hhead : (tokens'.drop (start + us.length)).head? = (tokens.drop index').head? := by
    rw [List.head?_drop, List.head?_drop, hlength, hsame _ (Nat.le_refl _)]
    congr 1
    omega
  have hbehind : (⟨us.getLast?, tokens'.drop (start + us.length)⟩ : Cursor) =
      .ofIndex tokens' (start + us.length) := by
    rw [Cursor.ofIndex, if_neg (by omega), List.getLast?_eq_getElem?, ← hlast]
    congr 2
    omega
  rw [← hlength]
  refine ⟨by omega, hwithin, ?_⟩
  have hresult := hread budget' (if start = 0 then none else tokens'[start - 1]?) _ hbudget hhead
  rwa [← hsplit, hbehind] at hresult

/-- What a call promises that was made at an index and a depth, when it answers with a tree at another
index and depth. -/
structure Answered (tokens : List Token) (index depth least : Nat) (tree : Node) (index' depth' : Nat) :
    Prop where
  reads : expression (maxDepth - depth) least (.ofIndex tokens index) =
    .ok (tree, .ofIndex tokens index')
  advances : index < index'
  within : index' ≤ tokens.length
  restores : depth' = depth
  stops : Stops least (.ofIndex tokens index')
  /-- Where the same tokens stand, a call that has as many levels left comes to the same answer, and
  every answer is the same. -/
  depends : ∀ ⦃tokens₂ start depth₂⦄, SameWindow tokens tokens₂ index start (index' - index) →
    (depth₂ ≤ depth → Reaches tokens₂ (.calling start depth₂ least)
      (.answering (start + (index' - index)) depth₂ tree)) ∧
    ∀ tree₂ index₂ depth₂', Reaches tokens₂ (.calling start depth₂ least)
      (.answering index₂ depth₂' tree₂) → tree₂ = tree ∧ index₂ = start + (index' - index)

private theorem answered_of_reaches {depth depth' index' : Nat} {tree : Node} (hle : index ≤ tokens.length)
    (h : Reaches tokens (.calling index depth least) (.answering index' depth' tree)) :
    Answered tokens index depth least tree index' depth' := by
  obtain ⟨hreads, hle', hdepth⟩ := (answering_iff hle depth least).mp h
  have hself := expression_of_sameWindow hreads hle hle' (fun _ _ => rfl) (Nat.le_refl _)
  refine ⟨hreads, hself.1, hle', hdepth, (expression_window hreads).1, ?_⟩
  intro tokens₂ start depth₂ hsame
  have hmoved := fun budget => @expression_of_sameWindow _ _ _ _ _ start budget _ _ hreads hle hle' hsame
  have hstart : start ≤ tokens₂.length := by
    have := (hmoved _ (Nat.le_refl _)).2.1
    omega
  constructor
  · intro hdepth₂
    obtain ⟨-, hwithin, hread⟩ := hmoved (maxDepth - depth₂) (by omega)
    exact (answering_iff hstart depth₂ least).mpr ⟨hread, hwithin, rfl⟩
  · intro tree₂ index₂ depth₂' h₂
    obtain ⟨hread₂, hle₂, -⟩ := (answering_iff hstart depth₂ least).mp h₂
    -- Both are read within the greater one of the two budgets.
    obtain ⟨-, hwithin, hread⟩ :=
      hmoved (max (maxDepth - depth) (maxDepth - depth₂)) (Nat.le_max_left ..)
    have hboth := kept_expression (Nat.le_max_right (maxDepth - depth) _) least _ _ hread₂
    obtain ⟨htree, hindex⟩ := Prod.mk.inj (Except.ok.inj (hboth.symm.trans hread))
    exact ⟨htree, ofIndex_injective hle₂ hwithin hindex⟩

private theorem parseTokens_eq_ok_iff_reaches {tree : Node} :
    parseTokens tokens = .ok tree ↔
      tokens ≠ [] ∧ Reaches tokens (.calling 0 0 0) (.answering tokens.length 0 tree) := by
  rw [answering_iff (Nat.zero_le _)]
  have hend : (Cursor.ofIndex tokens tokens.length).rest = [] := List.drop_length
  have hreal := realizes_calling (Nat.zero_le tokens.length) 0 0
  unfold parseTokens
  rw [show (⟨none, tokens⟩ : Cursor) = .ofIndex tokens 0 from rfl]
  rw [Nat.sub_zero] at hreal ⊢
  generalize expression maxDepth 0 (.ofIndex tokens 0) = result at hreal
  cases tokens with
  | nil => simp
  | cons token tokens =>
    simp only [List.isEmpty_cons, Bool.false_eq_true, if_false, ne_eq, List.cons_ne_nil,
      not_false_eq_true, true_and, le_refl, and_self, and_true]
    cases hreal with
    | refused => simp [Except.bind]
    | @read index tree' hle =>
      constructor
      · intro h
        cases hrest : (Cursor.ofIndex (token :: tokens) index).rest with
        | cons => simp [Except.bind, hrest] at h
        | nil =>
          have hindex : index = (token :: tokens).length :=
            Nat.le_antisymm hle (List.drop_eq_nil_iff.mp hrest)
          simp only [Except.bind, hrest] at h
          rw [← hindex, Except.ok.inj h]
      · intro h
        obtain ⟨rfl, hindex⟩ := Prod.mk.inj (Except.ok.inj h)
        rw [← hindex] at hend
        simp [Except.bind, hend]

/-- Every call of an expression comes to an end, with the answer or the refusal of the parser. An answer
is further on, gives back the levels that were used up, depends on what stands in its window, and takes
all operators that are strong enough. While a formula is read there are at most as many expressions open
as there are levels. -/
theorem frame_contract (tokens : List Token) :
    (∀ index depth least, index ≤ tokens.length →
      (∃ n, ((step tokens)^[n] (.calling index depth least)).Over) ∧
      (∀ e, (∃ m, Reaches tokens (.calling index depth least) m ∧ m.stage = .refused e) ↔
        expression (maxDepth - depth) least (.ofIndex tokens index) = .error e) ∧
      (∀ tree index' depth',
        Reaches tokens (.calling index depth least) (.answering index' depth' tree) →
          Answered tokens index depth least tree index' depth') ∧
      ∀ n, ((step tokens)^[n] (.calling index depth least)).frames.length ≤ maxDepth - depth) ∧
    (∀ tree, parseTokens tokens = .ok tree ↔
      tokens ≠ [] ∧ Reaches tokens (.calling 0 0 0) (.answering tokens.length 0 tree)) ∧
    ∀ n, ((step tokens)^[n] (.calling 0 0 0)).frames.length < maxDepth + 1 := by
  have hbounded : ∀ index depth least n,
      ((step tokens)^[n] (.calling index depth least)).frames.length ≤ maxDepth - depth :=
    fun index depth least n => ((bounded_calling index depth least).run n).length_le
  refine ⟨fun index depth least hle => ⟨exists_over hle depth least, ?_, ?_, ?_⟩, ?_, ?_⟩
  · exact fun e => refused_iff hle depth least
  · exact fun tree index' depth' => answered_of_reaches hle
  · exact hbounded index depth least
  · exact fun tree => parseTokens_eq_ok_iff_reaches
  · exact fun n => Nat.lt_succ_of_le (hbounded 0 0 0 n)

def signedPower : List Token :=
  [⟨.minus, ⟨0, 1⟩, "-"⟩, ⟨.name "x", ⟨1, 2⟩, "x"⟩, ⟨.caret, ⟨2, 3⟩, "^"⟩, ⟨.name "x", ⟨3, 4⟩, "x"⟩,
    ⟨.plus, ⟨4, 5⟩, "+"⟩, ⟨.name "x", ⟨5, 6⟩, "x"⟩]

/-- The operand of the sign is the power, also where nothing stands in front of it. -/
theorem frame_contract_signedPower :
    Answered signedPower 1 1 4 (.binary .pow .var .var) 4 1 ∧
      Reaches (signedPower.drop 1) (.calling 0 0 4) (.answering 3 0 (.binary .pow .var .var)) := by
  obtain ⟨-, -, hanswered, -⟩ := (frame_contract signedPower).1 1 1 4 (by decide)
  have hpower : Answered signedPower 1 1 4 (.binary .pow .var .var) 4 1 := hanswered _ _ _ ⟨8, rfl⟩
  have hsame : SameWindow signedPower (signedPower.drop 1) 1 0 3 := by
    intro i _
    rw [List.getElem?_drop, Nat.zero_add]
  exact ⟨hpower, (hpower.depends hsame).1 (Nat.zero_le 1)⟩

end EquationSolver.Formula.Parser
