import EquationSolver.Proofs.Formula.Refusal

/-!
# Repairing formulas

An error of the parser tells how the formula is repaired: what is to be added at its end, where it has
to end instead, or up to which token nothing can be saved.
-/

namespace EquationSolver.Formula

open Grammar EquationSolver.Formula.Parser

def Accepted (tokens : List Token) : Prop :=
  ∃ t, parseTokens tokens = .ok t

/-- What an error of the parser tells about the tokens it was found in. Tokens are meant by their
spans, which are distinct. -/
def Repairable (ts : List Token) : ParseError → Prop
  | .unexpectedEnd after =>
      (∃ last ∈ ts.getLast?, last.lexeme = after) ∧
        ∃ k : Nat, excess ts = k ∧ ∀ x closings, x.kind = .name "x" → closings.length = k →
          (∀ closing ∈ closings, closing.kind = .closeParen) → Accepted (ts ++ x :: closings)
  | .unmatchedOpen span =>
      (∃ innermost ∈ (unclosed ts).head?, innermost.span = span) ∧
        ∃ k : Nat, excess ts = k ∧ 1 ≤ k ∧ ∀ closings, closings.length = k →
          (∀ closing ∈ closings, closing.kind = .closeParen) → Accepted (ts ++ closings)
  | .unmatchedClose span =>
      span ∈ ts.map Token.span ∧
        ∀ i, (ts.map Token.span)[i]? = some span → Accepted (ts.take i)
  | .unexpectedToken _ span | .unknownName _ span | .tooDeep _ span =>
      span ∈ ts.map Token.span ∧
        ∀ i, (ts.map Token.span)[i]? = some span → ∀ more, ¬Accepted (ts.take (i + 1) ++ more)
  | .empty | .unexpectedChar .. | .invalidNumber .. | .missingArgument .. => True

variable {ts us vs : List Token} {token : Token} {e : ParseError}

private theorem accepted_of_completes (h : Completes (expression maxDepth 0 ⟨none, ts⟩) []) :
    Accepted ts := by
  obtain ⟨t, last, hread⟩ := h
  cases ts with
  | nil => cases hread
  | cons token ts => exact ⟨t, by simp [parseTokens, hread, Except.bind]⟩

private theorem Accepted.completes (h : Accepted ts) : Completes (expression maxDepth 0 ⟨none, ts⟩) [] := by
  obtain ⟨t, h⟩ := h
  unfold parseTokens at h
  split at h
  · cases h
  obtain ⟨⟨tree, last, rest⟩, hread, hend⟩ := bind_eq_ok h
  cases rest with
  | nil => exact ⟨tree, last, hread⟩
  | cons token rest => cases hend

private theorem eq_length_of_span (hspans : ((us ++ token :: vs).map Token.span).Nodup) {i : Nat}
    (h : ((us ++ token :: vs).map Token.span)[i]? = some token.span) : i = us.length := by
  have hlt : i < ((us ++ token :: vs).map Token.span).length := (List.getElem?_eq_some_iff.mp h).1
  exact (List.getElem?_inj hlt hspans).mp (h.trans (by simp))

private theorem repairable_of_refuses (hspans : ((us ++ token :: vs).map Token.span).Nodup)
    (hrefuses : Refuses token e) (hfails : ∀ more, ¬Accepted (us ++ token :: more)) :
    Repairable (us ++ token :: vs) e := by
  have htells : token.span ∈ (us ++ token :: vs).map Token.span ∧
      ∀ i, ((us ++ token :: vs).map Token.span)[i]? = some token.span →
        ∀ more, ¬Accepted ((us ++ token :: vs).take (i + 1) ++ more) := by
    refine ⟨by simp, fun i hi more => ?_⟩
    obtain rfl := eq_length_of_span hspans hi
    simpa [List.take_append, List.take_of_length_le] using hfails more
  cases hrefuses with
  | unexpected | unknown | tooDeep => exact htells

private theorem Parser.Diagnosis.repairable (hspans : (ts.map Token.span).Nodup) (hne : ts ≠ [])
    (h : Diagnosis (fun ts => expression maxDepth 0 ⟨none, ts⟩) none ts e) : Repairable ts e := by
  cases h with
  | @missingOperand opened leaves completes =>
    refine ⟨⟨ts.getLast hne, List.getLast?_eq_some_getLast hne, ?_⟩, opened.length, leaves.excess_eq,
      fun x closings hx hlength hkind => accepted_of_completes ?_⟩
    · simp [lastOf, List.getLast?_eq_some_getLast hne]
    · simpa using completes x closings [] hx ⟨hlength, hkind⟩ dull_nil
  | @missingClosing innermost opened leaves completes =>
    refine ⟨⟨innermost, ?_, rfl⟩, (innermost :: opened).length, leaves.excess_eq, by simp,
      fun closings hlength hkind => accepted_of_completes ?_⟩
    · simp [unclosed, leaves.open_eq]
    · simpa using completes closings [] ⟨hlength, hkind⟩ dull_nil
  | @refused us vs token _ split _ last_eq refuses fails =>
    have hlast : us.getLast? = some token := by simpa [lastOf] using last_eq
    obtain ⟨us, rfl⟩ := List.getLast?_eq_some_iff.mp hlast
    rw [List.append_assoc, List.singleton_append] at split
    subst split
    refine repairable_of_refuses hspans refuses fun more haccepted => ?_
    obtain ⟨e, he⟩ := fails more
    obtain ⟨t, last, hread⟩ := haccepted.completes
    simp [hread] at he
  | missingArgument name span => exact trivial

/-- Behind a formula, a closing parenthesis can be left out, and any other token cannot be saved. -/
theorem repairable_of_trailing {t : Node} {last : Option Token}
    (hspans : ((us ++ token :: vs).map Token.span).Nodup)
    (hread : ∀ rest, Alike (token :: vs) rest →
      expression maxDepth 0 ⟨none, us ++ rest⟩ = .ok (t, ⟨last, rest⟩)) :
    Repairable (us ++ token :: vs)
      (if token.closes then .unmatchedClose token.span else unexpected token) := by
  cases hcloses : token.closes with
  | true =>
    refine ⟨by simp, fun i hi => ?_⟩
    obtain rfl := eq_length_of_span hspans hi
    rw [List.take_left]
    have hend := hread [] ((dull_cons (closes_iff.mp hcloses) vs).alike dull_nil)
    exact accepted_of_completes ⟨t, last, by simpa using hend⟩
  | false =>
    refine repairable_of_refuses hspans .unexpected fun more haccepted => ?_
    obtain ⟨t', last', hall⟩ := haccepted.completes
    cases hall.symm.trans (hread (token :: more) (alike_cons token vs more))

/-- The errors of the parser tell how a formula is repaired, or that it cannot be. -/
theorem repairable_of_parseTokens (hspans : (ts.map Token.span).Nodup)
    (h : parseTokens ts = .error e) : Repairable ts e := by
  cases ts with
  | nil =>
    cases h
    exact trivial
  | cons first ts =>
    simp only [parseTokens, List.isEmpty_cons, Bool.false_eq_true, if_false] at h
    rcases bind_eq_error h with hread | ⟨⟨tree, previous, rest⟩, hread, htrailing⟩
    · have hlast : (lastOf none (first :: ts)).isSome = true := by simp [isSome_lastOf]
      exact ((diagnosed maxDepth).1 hlast hread).repairable hspans (List.cons_ne_nil first ts)
    · obtain ⟨us, hts, -, -, hsame⟩ := expression_steady maxDepth (Nat.zero_le 5) none hread
      cases rest with
      | nil => cases htrailing
      | cons token rest =>
        simp only at hts hsame
        cases htrailing
        rw [hts] at hspans ⊢
        exact repairable_of_trailing hspans hsame

/-- Behind `(x+`, an operand and a parenthesis are missing. -/
theorem repairable_of_parseTokens_unfinished :
    let tokens : List Token :=
      [⟨.openParen, ⟨0, 1⟩, "("⟩, ⟨.name "x", ⟨1, 2⟩, "x"⟩, ⟨.plus, ⟨2, 3⟩, "+"⟩]
    (tokens.map Token.span).Nodup ∧ parseTokens tokens = .error (.unexpectedEnd "+") ∧
      Repairable tokens (.unexpectedEnd "+") :=
  have hspans := by decide
  ⟨hspans, rfl, repairable_of_parseTokens hspans rfl⟩

end EquationSolver.Formula
