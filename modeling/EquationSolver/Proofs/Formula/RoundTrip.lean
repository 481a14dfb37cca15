import EquationSolver.Proofs.Decimal.ReadBack
import EquationSolver.Proofs.Formula.Printed
import EquationSolver.Proofs.Formula.Recognition

/-!
# Printing and reading

The text of a tree is read as that tree, unless it uses up the levels of the parser.
-/

namespace EquationSolver.Formula

open Grammar EquationSolver.Formula.Parser

/-- The text of a tree whose numbers can be read is read as the tree, if and only if it takes no more
levels than there are. -/
theorem parse_text_of_legible {t : Node} (h : ∀ value ∈ t.numbers, Node.Legible value) :
    (t.levels ≤ maxDepth → parse t.text = .ok t) ∧
      (maxDepth < t.levels → TooDeep (parse t.text)) := by
  obtain ⟨tokens, htokens, hkinds⟩ := Node.tokenize_text h
  obtain ⟨d, hlevels, -⟩ := t.readable tokens hkinds
  obtain ⟨e, hlevels', -⟩ :=
    d.exists_looser (show Phrase.sum.strength ≤ _ by cases t.phrase <;> decide)
  rw [parse_eq_of_tokenize htokens, ← hlevels, ← hlevels']
  exact e.parseTokens

theorem legible_of_unsigned {value : Float} (h : Decimal.Unsigned value) : Node.Legible value := by
  obtain ⟨_, hspells, hread⟩ := h.spells_text
  obtain ⟨c, more, htext, -⟩ := hspells.first
  have hnumeral := hspells.numeral
  have hcount := hspells.count_le
  rw [htext] at hnumeral hcount hread
  refine ⟨c, more, htext, ?_, ?_⟩
  · intro l hl
    simpa [Lexer.isNumeral] using hnumeral l hl
  · rw [Lexer.numeral?, if_neg (by omega)]
    exact hread

/-- The text of a tree whose numbers are finite and have a positive sign is read as exactly that tree,
or it is refused for the levels that it takes, and for nothing else. -/
theorem parse_text (t : Node) (h : ∀ value ∈ t.numbers, Decimal.Unsigned value) :
    parse t.text = .ok t ∧ t.levels ≤ maxDepth ∨
      ∃ span, parse t.text = .error (.tooDeep maxDepth span) ∧ maxDepth < t.levels := by
  obtain ⟨hok, hdeep⟩ := parse_text_of_legible fun value hv => legible_of_unsigned (h value hv)
  rcases Nat.lt_or_ge maxDepth t.levels with hlt | hle
  · obtain ⟨span, hspan⟩ := hdeep hlt
    exact .inr ⟨span, hspan, hlt⟩
  · exact .inl ⟨hok hle, hle⟩

/-- A power of a negated number from which a difference is taken, `(-2.5) ^ x - (x - 0.1)`. -/
def difference : Node :=
  .binary .sub (.binary .pow (.unary .negate (.number 2.5)) .var) (.binary .sub .var (.number 0.1))

theorem parse_text_difference :
    (∀ value ∈ difference.numbers, Decimal.Unsigned value) ∧ parse difference.text = .ok difference := by
  have hnumbers : ∀ value ∈ difference.numbers, Decimal.Unsigned value := by
    simp only [difference, Node.numbers, List.append_nil, List.nil_append, List.cons_append,
      List.mem_cons, List.not_mem_nil, or_false, forall_eq_or_imp, forall_eq]
    exact ⟨⟨by decide +kernel, by decide +kernel⟩, ⟨by decide +kernel, by decide +kernel⟩⟩
  refine ⟨hnumbers, ?_⟩
  rcases parse_text difference hnumbers with ⟨hparse, -⟩ | ⟨-, -, hlt⟩
  · exact hparse
  · exact absurd hlt (by decide)

end EquationSolver.Formula
