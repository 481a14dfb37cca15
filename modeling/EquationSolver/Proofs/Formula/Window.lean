import EquationSolver.Proofs.Formula.Lookahead

/-!
# The window of an expression

What an expression reads, it reads from its own tokens and the one behind them. It reads the same within
a greater budget, behind any other token, and in front of any tokens that begin alike.
-/

namespace EquationSolver.Formula.Parser

/-! ## Greater budgets -/

def Kept {α : Type} (result result' : Except ParseError α) : Prop :=
  ∀ read, result = .ok read → result' = .ok read

private theorem Kept.bind {α β : Type} {result result' : Except ParseError α}
    {next next' : α → Except ParseError β} (h : Kept result result')
    (hnext : ∀ read, Kept (next read) (next' read)) : Kept (result.bind next) (result'.bind next') := by
  intro read hread
  obtain ⟨between, hbetween, hbehind⟩ := bind_eq_ok hread
  rw [h between hbetween]
  exact hnext between read hbehind

private theorem kept_refl {α : Type} (result : Except ParseError α) : Kept result result :=
  fun _ h => h

private theorem kept_error {α : Type} (e : ParseError) (result : Except ParseError α) :
    Kept (.error e) result := by
  intro read h
  cases h

variable {inner inner' : Nat → Cursor → Result}

section Operands

variable (hinner : ∀ least here, Kept (inner least here) (inner' least here))

include hinner

private theorem kept_group (opening : Token) (here : Cursor) :
    Kept (group inner opening here) (group inner' opening here) := by
  have hbody := (hinner 0 here).bind (fun read => kept_refl (close opening read.1 read.2))
  obtain ⟨last, _ | ⟨token, rest⟩⟩ := here
  · exact hbody
  · cases hcloses : token.closes with
    | true => simpa [group, hcloses] using kept_error _ _
    | false => simpa [group, hcloses] using hbody

private theorem kept_named (name : String) (span : Span) (here : Cursor) :
    Kept (named inner name span here) (named inner' name span here) := by
  rcases named_cases name with ⟨tree, hname⟩ | hname | ⟨function, hname⟩
  · rw [hname, hname]
    exact kept_refl _
  · rw [hname]
    exact kept_error _ _
  · obtain ⟨last, rest⟩ := here
    by_cases hopens : ∃ opening more, rest = opening :: more ∧ opening.kind = .openParen
    · obtain ⟨opening, more, rfl, hopening⟩ := hopens
      rw [(hname _ _ _).1 opening more hopening, (hname _ _ _).1 opening more hopening]
      exact (kept_group hinner opening _).bind fun _ => kept_refl _
    · have hrest : ∀ token ∈ rest.head?, token.kind ≠ .openParen := by
        intro token htoken hkind
        obtain ⟨more, rfl⟩ := List.head?_eq_some_iff.mp htoken
        exact hopens ⟨token, more, rfl, hkind⟩
      rw [(hname _ _ _).2 rest hrest]
      exact kept_error _ _

private theorem kept_operand (here : Cursor) : Kept (operand inner here) (operand inner' here) := by
  obtain ⟨last, _ | ⟨token, rest⟩⟩ := here
  · exact kept_error _ _
  · cases hk : token.kind with
    | number value => simpa [operand, hk] using kept_refl _
    | name name => simpa [operand, hk] using kept_named hinner name token.span _
    | openParen => simpa [operand, hk] using kept_group hinner token _
    | minus | plus =>
      simpa [operand, operand.signed, hk] using (hinner _ _).bind fun _ => kept_refl _
    | star | slash | caret | closeParen => simpa [operand, hk] using kept_error _ _

end Operands

private theorem kept_succ (budget : Nat) :
    (∀ least here, Kept (expression budget least here) (expression (budget + 1) least here)) ∧
      ∀ least left here, Kept (chain budget least left here) (chain (budget + 1) least left here) := by
  induction budget with
  | zero =>
    refine ⟨fun least here => kept_error _ _, fun least left here => ?_⟩
    simp only [chain]
    split
    · exact kept_refl _
    · split
      · exact kept_refl _
      · exact kept_error _ _
  | succ budget ih =>
    constructor
    · intro least here
      exact (kept_operand ih.1 here).bind fun read => ih.2 least read.1 read.2
    · intro least left here
      simp only [chain]
      split
      · exact kept_refl _
      · split
        · exact kept_refl _
        · exact (ih.1 _ _).bind fun read => ih.2 _ _ _

theorem kept_expression {budget budget' : Nat} (hle : budget ≤ budget') (least : Nat) (here : Cursor) :
    Kept (expression budget least here) (expression budget' least here) := by
  induction hle with
  | refl => exact kept_refl _
  | step _ ih => exact fun read h => (kept_succ _).1 least here read (ih read h)

/-! ## Other tokens -/

variable {budget least : Nat} {last : Option Token} {ts : List Token} {t : Node} {after : Cursor}

/-- No operator binds more strongly than powers do, so that behind an operand for which one is asked
nothing more is read. -/
theorem expression_eq_operand (hlt : 5 < least) (here : Cursor) :
    expression (budget + 1) least here = operand (expression budget) here := by
  have hchain : ∀ left after, chain budget least left after = .ok (left, after) := fun left after =>
    chain_of_stops ((stops_atom after).mono hlt) budget left
  simp only [expression, hchain]
  cases operand (expression budget) here <;> rfl

private theorem steady_expression (budget least : Nat) (last : Option Token) :
    Steady last fun ts => expression budget least ⟨last, ts⟩ := by
  rcases Nat.lt_or_ge 5 least with hlt | hle
  · cases budget with
    | zero => nofun
    | succ budget =>
      simp only [expression_eq_operand hlt]
      exact operand_steady budget last
  · exact expression_steady budget hle last

private theorem expression_behind (budget least : Nat) (token : Token) (ts : List Token)
    (last last' : Option Token) :
    Kept (expression budget least ⟨last, token :: ts⟩) (expression budget least ⟨last', token :: ts⟩) := by
  cases budget with
  | zero => exact kept_error _ _
  | succ budget => exact kept_refl _

private theorem alike_of_head? {rest rest' : List Token} (h : rest.head? = rest'.head?) :
    Alike rest rest' := by
  cases rest with
  | nil =>
    obtain rfl : rest' = [] := List.head?_eq_none_iff.mp h.symm
    exact fun _ => rfl
  | cons token rest =>
    obtain ⟨rest', rfl⟩ := List.head?_eq_some_iff.mp h.symm
    exact alike_cons token rest rest'

/-- An expression that is read passes over some tokens and stops where no operator binds strongly enough.
The same tree is read from these tokens within any budget that is not less, whatever stands in front of
them and whatever begins with the same token behind them. -/
theorem expression_window (h : expression budget least ⟨last, ts⟩ = .ok (t, after)) :
    Stops least after ∧ ∃ us, us ≠ [] ∧ ts = us ++ after.rest ∧ after.previous = us.getLast? ∧
      ∀ budget' last' rest, budget ≤ budget' → rest.head? = after.rest.head? →
        expression budget' least ⟨last', us ++ rest⟩ = .ok (t, ⟨us.getLast?, rest⟩) := by
  obtain ⟨us, hpass, ⟨d⟩, hstops⟩ := (expression_sound budget).1 h
  obtain ⟨us', hts, -, -, hsame⟩ := steady_expression budget least last h
  obtain rfl : us = us' := List.append_cancel_right (hpass.rest.symm.trans hts)
  refine ⟨hstops, us, d.ne_nil, hts, hpass.previous, fun budget' last' rest hle hrest => ?_⟩
  obtain ⟨token, tail, rfl⟩ := List.exists_cons_of_ne_nil d.ne_nil
  have hread := hsame rest (alike_of_head? hrest.symm)
  rw [hpass.previous] at hread
  exact kept_expression hle least _ _ (expression_behind budget least token _ last last' _ hread)

end EquationSolver.Formula.Parser
