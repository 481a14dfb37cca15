import EquationSolver.Proofs.Formula.Lookahead

/-!
# Implied products

Where a product is implied between two tokens, it may as well be spelled out: the grammar derives the
same tree from the tokens with and without the stars, at the price of the same levels, and so the
parser reads both alike.
-/

namespace EquationSolver.Formula

open Grammar EquationSolver.Formula.Parser

namespace Grammar

/-- Whether a token ends an operand: a number, a closing parenthesis, or a name of no function. -/
def EndsOperand (token : Token) : Prop :=
  match token.kind with
  | .number _ | .closeParen => True
  | .name name => Builtin.ofName? name = none
  | _ => False

/-- Whether a product is implied between two neighbours: the left one ends an operand, and the right one
is a name or an opening parenthesis, or a number behind a closing parenthesis. -/
def Implied (left right : Token) : Prop :=
  EndsOperand left ∧ Juxtaposed (some left) right

/-- Whether some tokens are others with stars between neighbours that imply a product. In front of the
first token stands `last`, if there is such a token. -/
inductive Spelled : Option Token → List Token → List Token → Prop
  | nil {last : Option Token} : Spelled last [] []
  | keep {last : Option Token} {token : Token} {ts us : List Token}
      (rest : Spelled (some token) ts us) : Spelled last (token :: ts) (token :: us)
  | star {left token sign : Token} {ts us : List Token} (implied : Implied left token)
      (kind_eq : sign.kind = .star) (rest : Spelled (some token) ts us) :
      Spelled (some left) (token :: ts) (sign :: token :: us)

def EndsPlain (ts : List Token) : Prop :=
  ∀ token ∈ ts.getLast?, token.kind ≠ .star

variable {p : Phrase} {last : Option Token} {token : Token} {ts us vs ws : List Token} {t : Node}

private theorem EndsPlain.tail (h : EndsPlain (token :: ts)) : EndsPlain ts := by
  intro last hlast
  exact h last (by simp [List.getLast?_cons, Option.mem_def.mp hlast])

private theorem EndsPlain.append (h : EndsPlain us) (hne : us ≠ []) (ts : List Token) :
    EndsPlain (ts ++ us) := by
  intro last hlast
  rw [Option.mem_def, List.getLast?_append, List.getLast?_eq_some_getLast hne] at hlast
  exact h last (List.getLast?_eq_some_getLast hne ▸ hlast)

private theorem endsPlain_single (h : token.kind ≠ .star) : EndsPlain [token] := by
  rintro _ ⟨⟩
  exact h

private theorem Derivation.endsPlain (d : Derivation p ts t) : EndsPlain ts := by
  induction d with
  | ofProduct _ ih | ofSigned _ ih | ofPower _ ih | ofAtom _ ih => exact ih
  | @sum ts us _ _ sign _ _ _ _ right _ ihr | @product ts us _ _ sign _ _ _ _ right _ ihr
  | @power ts us _ _ sign _ _ right _ ihr =>
    exact (ihr.append right.ne_nil [sign]).append (List.cons_ne_nil sign us) ts
  | juxtaposed _ _ _ _ ihr => exact ihr.append (List.cons_ne_nil _ _) _
  | @signed _ _ sign _ _ d ih => exact ih.append d.ne_nil [sign]
  | number h | var h | pi h | euler h => exact endsPlain_single (by simp [h])
  | @group ts _ opening closing _ _ closes =>
    exact (endsPlain_single (by simp [closes])).append (List.cons_ne_nil closing []) (opening :: ts)
  | @call ts _ token _ opening closing _ _ _ _ _ closes =>
    exact (endsPlain_single (by simp [closes])).append (List.cons_ne_nil closing [])
      (token :: opening :: ts)

namespace Spelled

private theorem getLast?_eq (h : Spelled last ts ws) : ws.getLast? = ts.getLast? := by
  induction h with
  | nil => rfl
  | keep _ ih => rw [List.getLast?_cons, List.getLast?_cons, ih]
  | star _ _ _ ih => simp only [List.getLast?_cons, Option.getD_some, ih]

private theorem of_behind (h : Spelled (some token) ts ws) (htoken : ¬EndsOperand token) :
    Spelled none ts ws := by
  cases h with
  | nil => exact .nil
  | keep rest => exact .keep rest
  | star implied => exact absurd implied.1 htoken

private theorem of_first (h : Spelled none (token :: ts) ws) :
    ∃ us, ws = token :: us ∧ Spelled (some token) ts us := by
  cases h with
  | keep rest => exact ⟨_, rfl, rest⟩

private theorem of_first_right (h : Spelled none ts (token :: ws)) :
    ∃ us, ts = token :: us ∧ Spelled (some token) us ws := by
  cases h with
  | keep rest => exact ⟨_, rfl, rest⟩

private theorem of_single (h : Spelled none [token] ws) : ws = [token] := by
  obtain ⟨_, rfl, ⟨⟩⟩ := h.of_first
  rfl

private theorem of_single_right (h : Spelled none ts [token]) : ts = [token] := by
  obtain ⟨_, rfl, ⟨⟩⟩ := h.of_first_right
  rfl

private theorem of_append (h : Spelled last (us ++ vs) ws) :
    ∃ us' vs', ws = us' ++ vs' ∧ Spelled last us us' ∧ Spelled (lastOf last us) vs vs' := by
  induction us generalizing last ws with
  | nil => exact ⟨[], ws, rfl, .nil, h⟩
  | cons token us ih =>
    cases h with
    | keep rest =>
      obtain ⟨us', vs', rfl, hus, hvs⟩ := ih rest
      exact ⟨token :: us', vs', rfl, .keep hus, by simpa using hvs⟩
    | @star left _ sign _ _ implied kind_eq rest =>
      obtain ⟨us', vs', rfl, hus, hvs⟩ := ih rest
      exact ⟨sign :: token :: us', vs', rfl, .star implied kind_eq hus, by simpa using hvs⟩

/-- Spelled tokens come apart too, unless a star is cut off from the token behind it. -/
theorem of_append_right (h : Spelled last ts (us ++ vs)) (hus : EndsPlain us) :
    ∃ us' vs', ts = us' ++ vs' ∧ Spelled last us' us ∧ Spelled (lastOf last us') vs' vs := by
  generalize heq : us ++ vs = ws at h
  induction h generalizing us with
  | nil =>
    obtain ⟨rfl, rfl⟩ := List.append_eq_nil_iff.mp heq
    exact ⟨[], [], rfl, .nil, .nil⟩
  | @keep last token ts ws rest ih =>
    rcases List.append_eq_cons_iff.mp heq with ⟨rfl, rfl⟩ | ⟨us, rfl, rfl⟩
    · exact ⟨[], _, rfl, .nil, .keep rest⟩
    · obtain ⟨us', vs', rfl, h, h'⟩ := ih hus.tail rfl
      exact ⟨token :: us', vs', rfl, .keep h, by simpa using h'⟩
  | @star left token sign ts ws implied kind_eq rest ih =>
    rcases List.append_eq_cons_iff.mp heq with ⟨rfl, rfl⟩ | ⟨us, rfl, hws⟩
    · exact ⟨[], _, rfl, .nil, .star implied kind_eq rest⟩
    rcases List.append_eq_cons_iff.mp hws.symm with ⟨rfl, rfl⟩ | ⟨us, rfl, rfl⟩
    · exact absurd kind_eq (hus sign rfl)
    · obtain ⟨us', vs', rfl, h, h'⟩ := ih hus.tail.tail rfl
      exact ⟨token :: us', vs', rfl, .star implied kind_eq h, by simpa using h'⟩

private theorem of_mark (h : Spelled none (us ++ token :: vs) ws)
    (htoken : ∀ last, ¬Juxtaposed last token) :
    ∃ us' vs', ws = us' ++ token :: vs' ∧ Spelled none us us' ∧ Spelled (some token) vs vs' := by
  obtain ⟨us', ws', rfl, hus, hws⟩ := h.of_append
  generalize lastOf none us = last at hws
  cases hws with
  | keep rest => exact ⟨us', _, rfl, hus, rest⟩
  | star implied => exact absurd implied.2 (htoken _)

private theorem of_mark_right (h : Spelled none ts (us ++ token :: vs)) (hus : EndsPlain us)
    (htoken : token.kind ≠ .star) :
    ∃ us' vs', ts = us' ++ token :: vs' ∧ Spelled none us' us ∧ Spelled (some token) vs' vs := by
  obtain ⟨us', ws', rfl, hus, hws⟩ := h.of_append_right hus
  generalize lastOf none us' = last at hws
  cases hws with
  | keep rest => exact ⟨us', _, rfl, hus, rest⟩
  | star _ kind_eq => exact absurd kind_eq htoken

end Spelled

/-! ## Derivations -/

private theorem not_juxtaposed_binary {op : BinaryOp} (h : token.kind = op.kind) (last : Option Token) :
    ¬Juxtaposed last token := by
  cases op <;> simp [Juxtaposed, h, BinaryOp.kind]

private theorem not_endsOperand_binary {op : BinaryOp} (h : token.kind = op.kind) : ¬EndsOperand token := by
  cases op <;> simp [EndsOperand, h, BinaryOp.kind]

private theorem not_endsOperand_unary {op : UnaryOp} (h : token.kind = op.kind) : ¬EndsOperand token := by
  cases op <;> simp [EndsOperand, h, UnaryOp.kind]

private theorem not_endsOperand_function {name : String} {function : Builtin} (h : token.kind = .name name)
    (known : Builtin.ofName? name = some function) : ¬EndsOperand token := by
  simp [EndsOperand, h, known]

private theorem Spelled.of_operator {op : BinaryOp} (h : Spelled none (us ++ token :: vs) ws)
    (spelled : token.kind = op.kind) :
    ∃ us' vs', ws = us' ++ token :: vs' ∧ Spelled none us us' ∧ Spelled none vs vs' := by
  obtain ⟨us', vs', rfl, hus, hvs⟩ := h.of_mark (not_juxtaposed_binary spelled)
  exact ⟨us', vs', rfl, hus, hvs.of_behind (not_endsOperand_binary spelled)⟩

private theorem Spelled.of_operator_right {op : BinaryOp} (h : Spelled none ts (us ++ token :: vs))
    (hus : EndsPlain us) (spelled : token.kind = op.kind) (hop : op ≠ .mul) :
    ∃ us' vs', ts = us' ++ token :: vs' ∧ Spelled none us' us ∧ Spelled none vs' vs := by
  have hstar : token.kind ≠ .star := by
    cases op <;> simp_all [BinaryOp.kind]
  obtain ⟨us', vs', rfl, hus, hvs⟩ := h.of_mark_right hus hstar
  exact ⟨us', vs', rfl, hus, hvs.of_behind (not_endsOperand_binary spelled)⟩

section Enclosed

variable {opening closing : Token} (opens : opening.kind = .openParen)
  (closes : closing.kind = .closeParen)

include opens closes

private theorem Spelled.of_enclosed (h : Spelled none (opening :: (ts ++ [closing])) ws) :
    ∃ us, ws = opening :: (us ++ [closing]) ∧ Spelled none ts us := by
  obtain ⟨rest, rfl, hrest⟩ := h.of_first
  obtain ⟨us, vs, rfl, hus, ⟨⟩⟩ := (hrest.of_behind (by simp [EndsOperand, opens])).of_mark
    (by simp [Juxtaposed, closes])
  exact ⟨us, rfl, hus⟩

private theorem Spelled.of_enclosed_right (h : Spelled none ws (opening :: (ts ++ [closing])))
    (hts : EndsPlain ts) : ∃ us, ws = opening :: (us ++ [closing]) ∧ Spelled none us ts := by
  obtain ⟨rest, rfl, hrest⟩ := h.of_first_right
  obtain ⟨us, vs, rfl, hus, ⟨⟩⟩ := (hrest.of_behind (by simp [EndsOperand, opens])).of_mark_right hts
    (by simp [closes])
  exact ⟨us, rfl, hus⟩

end Enclosed

/-- What is derived from some tokens is derived from them with stars spelled out. -/
theorem Derivation.spelled (d : Derivation p ts t) (h : Spelled none ts ws) :
    ∃ e : Derivation p ws t, e.levels = d.levels ∧ e.spine = d.spine := by
  induction d generalizing ws with
  | ofProduct _ ih | ofSigned _ ih | ofPower _ ih | ofAtom _ ih =>
    obtain ⟨e, hlevels, hspine⟩ := ih h
    obtain ⟨f, hlevels', hspine'⟩ := e.exists_loosened
    exact ⟨f, hlevels'.trans hlevels, hspine'.trans hspine⟩
  | sum op additive _ spelled _ ihl ihr =>
    obtain ⟨us, vs, rfl, hus, hvs⟩ := h.of_operator spelled
    obtain ⟨left, hlevels, hspine⟩ := ihl hus
    obtain ⟨right, hlevels', -⟩ := ihr hvs
    exact ⟨.sum op additive left spelled right, by simp [levels, *], by simp [spine, *]⟩
  | product op multiplicative _ spelled _ ihl ihr =>
    obtain ⟨us, vs, rfl, hus, hvs⟩ := h.of_operator spelled
    obtain ⟨left, hlevels, hspine⟩ := ihl hus
    obtain ⟨right, hlevels', -⟩ := ihr hvs
    exact ⟨.product op multiplicative left spelled right, by simp [levels, *], by simp [spine, *]⟩
  | power _ spelled _ ihl ihr =>
    obtain ⟨us, vs, rfl, hus, hvs⟩ := h.of_operator (show _ = BinaryOp.pow.kind from spelled)
    obtain ⟨base, hlevels, hspine⟩ := ihl hus
    obtain ⟨exponent, hlevels', -⟩ := ihr hvs
    exact ⟨.power base spelled exponent, by simp [levels, *], by simp [spine, *]⟩
  | juxtaposed _ meet _ ihl ihr =>
    obtain ⟨us, vs, rfl, hus, hvs⟩ := h.of_append
    obtain ⟨left, hlevels, hspine⟩ := ihl hus
    rw [← hus.getLast?_eq] at meet
    generalize lastOf none _ = last at hvs
    cases hvs with
    | keep rest =>
      obtain ⟨right, hlevels', -⟩ := ihr (.keep rest)
      exact ⟨.juxtaposed left meet right, by simp [levels, *], by simp [spine, *]⟩
    | star _ kind_eq rest =>
      obtain ⟨right, hlevels', -⟩ := ihr (.keep rest)
      exact ⟨.product .mul (.inl rfl) left kind_eq (.ofPower right), by simp [levels, *],
        by simp [spine, *]⟩
  | signed op spelled _ ih =>
    obtain ⟨us, rfl, hus⟩ := h.of_first
    obtain ⟨operand, hlevels, -⟩ := ih (hus.of_behind (not_endsOperand_unary spelled))
    exact ⟨.signed op spelled operand, by simp [levels, *], rfl⟩
  | number hk =>
    obtain rfl := h.of_single
    exact ⟨.number hk, rfl, rfl⟩
  | var hk =>
    obtain rfl := h.of_single
    exact ⟨.var hk, rfl, rfl⟩
  | pi hk named =>
    obtain rfl := h.of_single
    exact ⟨.pi hk named, rfl, rfl⟩
  | euler hk =>
    obtain rfl := h.of_single
    exact ⟨.euler hk, rfl, rfl⟩
  | group opens _ closes ih =>
    obtain ⟨us, rfl, hus⟩ := h.of_enclosed opens closes
    obtain ⟨inner, hlevels, -⟩ := ih hus
    exact ⟨.group opens inner closes, by simp [levels, *], rfl⟩
  | call function hk known opens _ closes ih =>
    obtain ⟨rest, rfl, hrest⟩ := h.of_first
    obtain ⟨us, rfl, hus⟩ :=
      (hrest.of_behind (not_endsOperand_function hk known)).of_enclosed opens closes
    obtain ⟨inner, hlevels, -⟩ := ih hus
    exact ⟨.call function hk known opens inner closes, by simp [levels, *], rfl⟩

/-- A signed operand whose first token implies a product is a power. -/
theorem Derivation.exists_power {last : Option Token} {first : Token}
    (d : Derivation .signed (first :: us) t) (meet : Juxtaposed last first) :
    ∃ e : Derivation .power (first :: us) t, e.levels = d.levels := by
  cases d with
  | ofPower d => exact ⟨d, rfl⟩
  | signed op spelled d => cases op <;> simp [Juxtaposed, spelled, UnaryOp.kind] at meet

/-- What is derived from tokens with stars spelled out is derived without them. -/
theorem Derivation.unspelled (d : Derivation p ws t) (h : Spelled none ts ws) :
    ∃ e : Derivation p ts t, e.levels = d.levels ∧ e.spine = d.spine := by
  induction d generalizing ts with
  | ofProduct _ ih | ofSigned _ ih | ofPower _ ih | ofAtom _ ih =>
    obtain ⟨e, hlevels, hspine⟩ := ih h
    obtain ⟨f, hlevels', hspine'⟩ := e.exists_loosened
    exact ⟨f, hlevels'.trans hlevels, hspine'.trans hspine⟩
  | sum op additive dl spelled _ ihl ihr =>
    obtain ⟨us, vs, rfl, hus, hvs⟩ :=
      h.of_operator_right dl.endsPlain spelled (by rcases additive with rfl | rfl <;> decide)
    obtain ⟨left, hlevels, hspine⟩ := ihl hus
    obtain ⟨right, hlevels', -⟩ := ihr hvs
    exact ⟨.sum op additive left spelled right, by simp [levels, *], by simp [spine, *]⟩
  | product op multiplicative dl spelled _ ihl ihr =>
    obtain ⟨us, vs, rfl, hus, hvs⟩ := h.of_append_right dl.endsPlain
    obtain ⟨left, hlevels, hspine⟩ := ihl hus
    have hlast : lastOf none us = us.getLast? := by simp [lastOf]
    rw [hlast] at hvs
    generalize hl : us.getLast? = last at hvs
    cases hvs with
    | keep rest =>
      obtain ⟨right, hlevels', -⟩ := ihr (rest.of_behind (not_endsOperand_binary spelled))
      exact ⟨.product op multiplicative left spelled right, by simp [levels, *], by simp [spine, *]⟩
    | star implied kind_eq rest =>
      -- The star of this product was left out.
      obtain rfl : op = .mul := by
        rcases multiplicative with rfl | rfl
        · rfl
        · simp [spelled, BinaryOp.kind] at kind_eq
      obtain ⟨right, hlevels', -⟩ := ihr (.keep rest)
      obtain ⟨power, hpower⟩ := right.exists_power implied.2
      exact ⟨.juxtaposed left (hl ▸ implied.2) power, by simp [levels, *], by simp [spine, *]⟩
  | power dl spelled _ ihl ihr =>
    obtain ⟨us, vs, rfl, hus, hvs⟩ :=
      h.of_operator_right dl.endsPlain (show _ = BinaryOp.pow.kind from spelled) (by decide)
    obtain ⟨base, hlevels, hspine⟩ := ihl hus
    obtain ⟨exponent, hlevels', -⟩ := ihr hvs
    exact ⟨.power base spelled exponent, by simp [levels, *], by simp [spine, *]⟩
  | @juxtaposed _ _ _ _ first dl meet _ ihl ihr =>
    have hfirst : first.kind ≠ .star := by
      intro hstar
      simp [Juxtaposed, hstar] at meet
    obtain ⟨us, vs, rfl, hus, hvs⟩ := h.of_mark_right dl.endsPlain hfirst
    obtain ⟨left, hlevels, hspine⟩ := ihl hus
    obtain ⟨right, hlevels', -⟩ := ihr (.keep hvs)
    exact ⟨.juxtaposed left (hus.getLast?_eq ▸ meet) right, by simp [levels, *], by simp [spine, *]⟩
  | signed op spelled _ ih =>
    obtain ⟨us, rfl, hus⟩ := h.of_first_right
    obtain ⟨operand, hlevels, -⟩ := ih (hus.of_behind (not_endsOperand_unary spelled))
    exact ⟨.signed op spelled operand, by simp [levels, *], rfl⟩
  | number hk =>
    obtain rfl := h.of_single_right
    exact ⟨.number hk, rfl, rfl⟩
  | var hk =>
    obtain rfl := h.of_single_right
    exact ⟨.var hk, rfl, rfl⟩
  | pi hk named =>
    obtain rfl := h.of_single_right
    exact ⟨.pi hk named, rfl, rfl⟩
  | euler hk =>
    obtain rfl := h.of_single_right
    exact ⟨.euler hk, rfl, rfl⟩
  | group opens d closes ih =>
    obtain ⟨us, rfl, hus⟩ := h.of_enclosed_right opens closes d.endsPlain
    obtain ⟨inner, hlevels, -⟩ := ih hus
    exact ⟨.group opens inner closes, by simp [levels, *], rfl⟩
  | call function hk known opens d closes ih =>
    obtain ⟨rest, rfl, hrest⟩ := h.of_first_right
    obtain ⟨us, rfl, hus⟩ := (hrest.of_behind
      (not_endsOperand_function hk known)).of_enclosed_right opens closes d.endsPlain
    obtain ⟨inner, hlevels, -⟩ := ih hus
    exact ⟨.call function hk known opens inner closes, by simp [levels, *], rfl⟩

end Grammar

private theorem parseTokens_eq_ok_iff {ts : List Token} {t : Node} :
    parseTokens ts = .ok t ↔ ∃ d : Derivation .sum ts t, d.levels ≤ maxDepth := by
  constructor
  · exact derives_of_parseTokens
  · rintro ⟨d, hd⟩
    exact d.parseTokens.1 hd

/-- Stars between neighbours that imply a product make no difference: the tokens are read with them
just if they are read without them, and as the same tree. -/
theorem parseTokens_spelled {ts ws : List Token} (h : Spelled none ts ws) (t : Node) :
    parseTokens ws = .ok t ↔ parseTokens ts = .ok t := by
  rw [parseTokens_eq_ok_iff, parseTokens_eq_ok_iff]
  constructor
  · rintro ⟨d, hd⟩
    obtain ⟨e, hlevels, -⟩ := d.unspelled h
    exact ⟨e, hlevels ▸ hd⟩
  · rintro ⟨d, hd⟩
    obtain ⟨e, hlevels, -⟩ := d.spelled h
    exact ⟨e, hlevels ▸ hd⟩

/-- `2 x ^ 4 (x) 3` is read like `2 * x ^ 4 (x) * 3`, in which two of its three products are spelled
out. -/
theorem parseTokens_spelled_product :
    let mark (kind : Token.Kind) : Token := ⟨kind, ⟨0, 0⟩, kind.text⟩
    let front := [mark (.number 2.0)]
    let middle := [mark (.name "x"), mark .caret, mark (.number 4.0), mark .openParen,
      mark (.name "x"), mark .closeParen]
    let back := [mark (.number 3.0)]
    let tree := Node.binary .mul (.binary .mul (.binary .mul (.number 2.0)
      (.binary .pow .var (.number 4.0))) .var) (.number 3.0)
    Spelled none (front ++ middle ++ back)
        (front ++ mark .star :: middle ++ mark .star :: back) ∧
      parseTokens (front ++ middle ++ back) = .ok tree ∧
      parseTokens (front ++ mark .star :: middle ++ mark .star :: back) = .ok tree := by
  intro mark front middle back tree
  have hspelled : Spelled none (front ++ middle ++ back)
      (front ++ mark .star :: middle ++ mark .star :: back) :=
    .keep (.star ⟨trivial, trivial⟩ rfl (.keep (.keep (.keep (.keep (.keep
      (.star ⟨trivial, _, rfl, rfl⟩ rfl .nil)))))))
  exact ⟨hspelled, rfl, (parseTokens_spelled hspelled tree).mpr rfl⟩

end EquationSolver.Formula
