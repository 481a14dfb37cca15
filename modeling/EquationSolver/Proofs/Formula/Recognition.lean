import EquationSolver.Proofs.Formula.Reading

/-!
# What the parser accepts

The parser reads exactly the sums of the grammar, with their trees, as long as its budget of levels
lasts, so that the tree of a formula depends on its tokens alone.
-/

namespace EquationSolver.Formula

open Grammar EquationSolver.Formula.Parser

namespace Grammar

def Phrase.ofStrength : Nat → Phrase
  | 0 | 1 | 2 => .sum
  | 3 => .product
  | _ => .signed

variable {p : Phrase} {ts us : List Token} {t : Node}

private theorem Derives.ofStrength (h : Derives p ts t) {least : Nat} (hle : min least 4 ≤ p.strength) :
    Derives (.ofStrength least) ts t := by
  apply h.looser
  match least with
  | 0 | 1 | 2 => cases p <;> decide
  | 3 => exact hle
  | n + 4 => exact Nat.le_trans (Nat.le_min.mpr ⟨Nat.le_add_left 4 n, Nat.le_refl 4⟩) hle

private theorem Derives.power_of_juxtaposed {last : Option Token} {first : Token}
    (h : Derives .signed (first :: us) t) (meet : Juxtaposed last first) :
    Derives .power (first :: us) t := by
  obtain ⟨d⟩ := h
  cases d with
  | ofPower d => exact ⟨d⟩
  | signed op spelled d => cases op <;> simp [Juxtaposed, spelled, UnaryOp.kind] at meet

end Grammar

namespace Parser

structure Passes (here : Cursor) (ts : List Token) (after : Cursor) : Prop where
  rest : here.rest = ts ++ after.rest
  previous : after.previous = ts.getLast?

/-- Whether what a parser reads is derived by the phrase of its place, and ends as late as the
place allows. -/
def Sound (inner : Nat → Cursor → Result) : Prop :=
  ∀ ⦃least here t after⦄, inner least here = .ok (t, after) →
    ∃ ts, Passes here ts after ∧ Derives (.ofStrength least) ts t ∧ Stops least after

theorem bind_eq_ok {α β : Type} {result : Except ParseError α} {f : α → Except ParseError β} {b : β}
    (h : result.bind f = .ok b) : ∃ a, result = .ok a ∧ f a = .ok b := by
  cases result with
  | error e => cases h
  | ok a => exact ⟨a, rfl, h⟩

theorem close_eq_ok {opened : Token} {tree t : Node} {here after : Cursor}
    (h : close opened tree here = .ok (t, after)) :
    ∃ closing, closing.kind = .closeParen ∧ here.rest = closing :: after.rest ∧
      after.previous = some closing ∧ t = tree := by
  obtain ⟨last, _ | ⟨closing, rest⟩⟩ := here
  · cases h
  · simp only [close] at h
    split at h
    · next hc =>
      cases h
      exact ⟨closing, closes_iff.mp hc, rfl, rfl, rfl⟩
    · cases h

private theorem group_sound {inner : Nat → Cursor → Result} (hs : Sound inner) {opening : Token} {t : Node}
    {here after : Cursor} (h : group inner opening here = .ok (t, after)) :
    ∃ ts closing, here.rest = ts ++ closing :: after.rest ∧ closing.kind = .closeParen ∧
      after.previous = some closing ∧ Derives .sum ts t := by
  have hinner : (inner 0 here).bind (fun read => close opening read.1 read.2) =
      .ok (t, after) := by
    simp only [group] at h
    split at h
    · split at h
      · cases h
      · exact h
    · exact h
  obtain ⟨⟨tree, between⟩, hread, hclose⟩ := bind_eq_ok hinner
  obtain ⟨ts, hts, hd, -⟩ := hs hread
  obtain ⟨closing, hk, hrest, hprev, rfl⟩ := close_eq_ok hclose
  exact ⟨ts, closing, by rw [hts.rest, hrest], hk, hprev, hd⟩

private theorem named_sound {inner : Nat → Cursor → Result} (hs : Sound inner) {name : String} {span : Span}
    {token : Token} (hk : token.kind = .name name) {last : Option Token} {rest : List Token} {t : Node}
    {after : Cursor} (h : named inner name span ⟨some token, rest⟩ = .ok (t, after)) :
    ∃ ts, Passes ⟨last, token :: rest⟩ ts after ∧ Derives .atom ts t := by
  unfold named at h
  split at h
  · next hx =>
    cases h
    exact ⟨[token], ⟨rfl, rfl⟩, ⟨.var (hx ▸ hk)⟩⟩
  split at h
  · next hpi =>
    cases h
    exact ⟨[token], ⟨rfl, rfl⟩, ⟨.pi hk hpi⟩⟩
  split at h
  · next he =>
    cases h
    exact ⟨[token], ⟨rfl, rfl⟩, ⟨.euler (he ▸ hk)⟩⟩
  split at h
  · cases h
  · next function known =>
    split at h
    · next openSpan lexeme rest' hrest =>
      obtain ⟨⟨argument, between⟩, hgroup, hcall⟩ := bind_eq_ok h
      cases hcall
      obtain ⟨ts, closing, htokens, hclose, hprev, ⟨d⟩⟩ := group_sound hs hgroup
      simp only [Cursor.skip] at htokens
      refine ⟨token :: ⟨.openParen, openSpan, lexeme⟩ :: (ts ++ [closing]), ⟨?_, ?_⟩,
        ⟨.call function hk known rfl d hclose⟩⟩
      · simp_all
      · simp [hprev, List.getLast?_cons]
    · cases h

theorem operand_sound {inner : Nat → Cursor → Result} (hs : Sound inner) {here after : Cursor}
    {t : Node} (h : operand inner here = .ok (t, after)) :
    ∃ p ts, Passes here ts after ∧ Derives p ts t ∧ 4 ≤ p.strength ∧ Stops p.limit after := by
  obtain ⟨last, _ | ⟨token, rest⟩⟩ := here
  · cases h
  cases hk : token.kind with
  | number value =>
    simp only [operand, hk] at h
    cases h
    exact ⟨.atom, [token], ⟨rfl, rfl⟩, ⟨.number hk⟩, by decide, stops_atom _⟩
  | name name =>
    simp only [operand, hk] at h
    obtain ⟨ts, hpass, hd⟩ := named_sound hs hk h
    exact ⟨.atom, ts, hpass, hd, by decide, stops_atom _⟩
  | openParen =>
    simp only [operand, hk] at h
    obtain ⟨ts, closing, htokens, hclose, hprev, ⟨d⟩⟩ := group_sound hs h
    have hrest : rest = ts ++ closing :: after.rest := htokens
    refine ⟨.atom, token :: (ts ++ [closing]), ⟨by simp [hrest], ?_⟩, ⟨.group hk d hclose⟩,
      by decide, stops_atom _⟩
    simp [hprev, List.getLast?_cons]
  | minus | plus =>
    simp only [operand, operand.signed, hk] at h
    obtain ⟨⟨tree, between⟩, hread, hsign⟩ := bind_eq_ok h
    cases hsign
    obtain ⟨ts, hpass, ⟨d⟩, hstops⟩ := hs hread
    refine ⟨.signed, token :: ts, ⟨?_, ?_⟩, ⟨.signed _ hk d⟩, by decide, hstops⟩
    · simpa [Cursor.skip] using hpass.rest
    · rw [hpass.previous, List.getLast?_cons_of_ne_nil d.ne_nil]
  | star | slash | caret | closeParen =>
    simp only [operand, hk] at h
    cases h

def SoundChain (budget : Nat) : Prop :=
  ∀ ⦃least p ts left here t after⦄, chain budget least left here = .ok (t, after) →
    Derives p ts left → min least 4 ≤ p.strength → Stops p.limit here →
    here.previous = ts.getLast? →
    ∃ us, here.rest = us ++ after.rest ∧ after.previous = (ts ++ us).getLast? ∧
      Derives (.ofStrength least) (ts ++ us) t ∧ Stops least after

private theorem three_le_strength {p : Phrase} (h : 3 < p.limit) :
    Phrase.product.strength ≤ p.strength := by
  cases p <;> simp_all [Phrase.limit, Phrase.strength]

private theorem derives_spelled {p : Phrase} {ts us : List Token} {left right : Node} {op : BinaryOp}
    {sign : Token} (hl : Derives p ts left) (hlimit : op.strength < p.limit)
    (hk : sign.kind = op.kind) (hr : Derives (.ofStrength (rightStrength op)) us right) :
    Derives (.ofStrength op.strength) (ts ++ sign :: us) (.binary op left right) := by
  obtain ⟨dr⟩ := hr
  cases op with
  | add | sub =>
    obtain ⟨dl⟩ := hl.looser (by cases p <;> decide : Phrase.sum.strength ≤ _)
    exact ⟨.sum _ (by simp) dl hk dr⟩
  | mul | div =>
    obtain ⟨dl⟩ := hl.looser (three_le_strength hlimit)
    exact ⟨.product _ (by simp) dl hk dr⟩
  | pow =>
    have hp : p = .atom := by cases p <;> simp_all [Phrase.limit, BinaryOp.strength]
    subst hp
    obtain ⟨dl⟩ := hl
    exact ⟨.ofPower (.power dl hk dr)⟩

private theorem derives_operator {p : Phrase} {ts us : List Token} {left right : Node} {here after : Cursor}
    {op : BinaryOp} {spelled : Bool} (hl : Derives p ts left) (hlimit : Stops p.limit here)
    (hprev : here.previous = ts.getLast?) (ho : here.operator? = some (op, spelled))
    (hpass : Passes (if spelled then here.skip else here) us after)
    (hr : Derives (.ofStrength (rightStrength op)) us right) :
    ∃ vs, here.rest = vs ++ after.rest ∧ after.previous = (ts ++ vs).getLast? ∧
      Derives (.ofStrength op.strength) (ts ++ vs) (.binary op left right) := by
  obtain ⟨token, rest, hrest, hhow⟩ := operator?_eq_some ho
  have hlt := hlimit op spelled ho
  obtain ⟨dr⟩ := hr
  rcases hhow with ⟨rfl, hk⟩ | ⟨rfl, rfl, meet⟩
  · have hnext : rest = us ++ after.rest := by simpa [Cursor.skip, hrest] using hpass.rest
    refine ⟨token :: us, by simp [hrest, hnext], ?_, derives_spelled hl hlt hk ⟨dr⟩⟩
    rw [hpass.previous, getLast?_append_cons token dr.ne_nil]
  · have hnext : token :: rest = us ++ after.rest := by simpa [hrest] using hpass.rest
    obtain ⟨first, tail, rfl, -⟩ := dr.exists_first
    cases hnext
    obtain ⟨dl⟩ := hl.looser (three_le_strength hlt)
    obtain ⟨dr⟩ := Derives.power_of_juxtaposed ⟨dr⟩ meet
    refine ⟨token :: tail, by simp [hrest], ?_, ⟨.juxtaposed dl (hprev ▸ meet) dr⟩⟩
    simp [hpass.previous, List.getLast?_append, List.getLast?_cons]

private theorem stops_limit {op : BinaryOp} {after : Cursor} (h : Stops (rightStrength op) after) :
    Stops (Phrase.ofStrength op.strength).limit after := by
  cases op with
  | add | sub | mul | div => exact h
  | pow => exact h.of_pow

private theorem chain_sound {budget : Nat}
    (ih : ∀ smaller, budget = smaller + 1 → Sound (expression smaller) ∧ SoundChain smaller) :
    SoundChain budget := by
  intro least p ts left here t after h hl hp hlimit hprev
  have hstop : t = left → after = here → Stops least here →
      ∃ us, here.rest = us ++ after.rest ∧ after.previous = (ts ++ us).getLast? ∧
        Derives (.ofStrength least) (ts ++ us) t ∧ Stops least after := by
    rintro rfl rfl hs
    exact ⟨[], rfl, by simpa using hprev, by simpa using hl.ofStrength hp, hs⟩
  -- The chain ends here without an operator, or with one that binds too weakly.
  cases ho : here.operator? with
  | none =>
    cases budget <;>
    · simp only [chain, ho] at h
      cases h
      exact hstop rfl rfl (stops_of_operator?_eq_none ho)
  | some next =>
    obtain ⟨op, spelled⟩ := next
    by_cases hlt : op.strength < least
    · cases budget <;>
      · simp only [chain, ho, if_pos hlt] at h
        cases h
        exact hstop rfl rfl (stops_of_operator? ho hlt)
    cases budget with
    | zero =>
      simp only [chain, ho, if_neg hlt] at h
      cases h
    | succ budget =>
      -- The operator and its right operand make a longer left operand, and the smaller chain goes on.
      simp only [chain, ho, if_neg hlt] at h
      obtain ⟨⟨right, between⟩, hright, hrest⟩ := bind_eq_ok h
      obtain ⟨hs, hnext⟩ := ih budget rfl
      obtain ⟨us, hpass, hr, hrstops⟩ := hs hright
      obtain ⟨vs, hvs, hlast, hd⟩ := derives_operator hl hlimit hprev ho hpass hr
      have hstrength : min least 4 ≤ (Phrase.ofStrength op.strength).strength := by
        cases op <;> simp_all only [BinaryOp.strength, Phrase.ofStrength, Phrase.strength] <;> omega
      obtain ⟨ws, hws, hwlast, hwd, hwstops⟩ :=
        hnext hrest hd hstrength (stops_limit hrstops) hlast
      refine ⟨vs ++ ws, ?_, ?_, ?_, hwstops⟩
      · rw [hvs, List.append_assoc]
        exact congrArg (vs ++ ·) hws
      · rw [← List.append_assoc]
        exact hwlast
      · rw [← List.append_assoc]
        exact hwd

/-- What the parser reads within any budget is derived by the phrase of its place. -/
theorem expression_sound (budget : Nat) : Sound (expression budget) ∧ SoundChain budget := by
  induction budget with
  | zero =>
    have hs : Sound (expression 0) := by
      intro least here t after h
      cases h
    exact ⟨hs, chain_sound (by simp)⟩
  | succ budget ih =>
    constructor
    · intro least here t after h
      obtain ⟨⟨left, between⟩, hleft, hchain⟩ := bind_eq_ok h
      obtain ⟨p, ts, hpass, hd, hp, hlimit⟩ := operand_sound ih.1 hleft
      obtain ⟨us, hus, hlast, hresult, hstops⟩ :=
        ih.2 hchain hd (by omega) hlimit hpass.previous
      exact ⟨ts ++ us, ⟨by rw [hpass.rest, hus, List.append_assoc], hlast⟩, hresult, hstops⟩
    · apply chain_sound
      rintro smaller ⟨⟩
      exact ih

end Parser

namespace Grammar

variable {tokens : List Token} {t : Node}

/-- What a formula's derivation says about reading it: it takes the derivation's levels. -/
theorem Derivation.parseTokens (d : Derivation .sum tokens t) :
    (d.levels ≤ maxDepth → Formula.parseTokens tokens = .ok t) ∧
      (maxDepth < d.levels → TooDeep (Formula.parseTokens tokens)) := by
  have htakes := d.takes (Nat.zero_le _) none [] (stops_end _ _) maxDepth
  have hne : tokens.isEmpty = false := by simpa using d.ne_nil
  simp only [List.append_nil] at htakes
  simp only [Formula.parseTokens, hne, Bool.false_eq_true, if_false]
  constructor
  · intro h
    rw [htakes.1 h, chain_of_stops (stops_end _ _)]
    rfl
  · intro h
    exact (htakes.2 h).bind _

theorem derives_of_parseTokens (h : Formula.parseTokens tokens = .ok t) :
    ∃ d : Derivation .sum tokens t, d.levels ≤ maxDepth := by
  have hd : Derives .sum tokens t := by
    unfold Formula.parseTokens at h
    split at h
    · cases h
    obtain ⟨⟨tree, after⟩, hread, hend⟩ := bind_eq_ok h
    obtain ⟨ts, hpass, hd, -⟩ := (expression_sound maxDepth).1 hread
    have hrest := hpass.rest
    cases hafter : after.rest with
    | nil =>
      simp only [hafter] at hend
      cases hend
      rw [hafter, List.append_nil] at hrest
      obtain rfl : tokens = ts := hrest
      exact hd
    | cons token rest =>
      simp only [hafter] at hend
      cases hend
  obtain ⟨d⟩ := hd
  have hlevels : ¬maxDepth < d.levels := by
    intro hlt
    obtain ⟨span, hdeep⟩ := d.parseTokens.2 hlt
    rw [hdeep] at h
    cases h
  exact ⟨d, Nat.le_of_not_lt hlevels⟩

theorem Derivation.unique {u : Node} (d : Derivation .sum tokens t) (e : Derivation .sum tokens u) :
    t = u := by
  have hd := (d.takes (Nat.zero_le _) none [] (stops_end _ _)
    (max d.levels e.levels)).1 (Nat.le_max_left ..)
  have he := (e.takes (Nat.zero_le _) none [] (stops_end _ _)
    (max d.levels e.levels)).1 (Nat.le_max_right ..)
  have heq := (hd.trans (chain_of_stops (stops_end _ _) _ t)).symm.trans
    (he.trans (chain_of_stops (stops_end _ _) _ u))
  cases heq
  rfl

/-- The parser reads exactly the sums of the grammar, each with the one tree that the grammar gives
it, unless it uses up the levels; all other tokens are refused. -/
theorem parseTokens_iff_derives (tokens : List Token) :
    (∀ t, Formula.parseTokens tokens = .ok t → Derives .sum tokens t) ∧
      (∀ t, Derives .sum tokens t →
        Formula.parseTokens tokens = .ok t ∨
          ∃ span, Formula.parseTokens tokens = .error (.tooDeep maxDepth span)) ∧
      (∀ t u, Derives .sum tokens t → Derives .sum tokens u → t = u) ∧
      ((¬∃ t, Derives .sum tokens t) → ∃ e, Formula.parseTokens tokens = .error e) := by
  refine ⟨?_, ?_, ?_, ?_⟩
  · intro t h
    obtain ⟨d, -⟩ := derives_of_parseTokens h
    exact ⟨d⟩
  · intro t h
    obtain ⟨d⟩ := h
    rcases Nat.lt_or_ge maxDepth d.levels with hlt | hle
    · exact .inr (d.parseTokens.2 hlt)
    · exact .inl (d.parseTokens.1 hle)
  · intro t u ht hu
    obtain ⟨d⟩ := ht
    obtain ⟨e⟩ := hu
    exact d.unique e
  · intro hnone
    cases h : Formula.parseTokens tokens with
    | error e => exact ⟨e, rfl⟩
    | ok t =>
      obtain ⟨d, -⟩ := derives_of_parseTokens h
      exact absurd ⟨t, ⟨d⟩⟩ hnone

end Grammar

theorem parse_eq_of_tokenize {source : String} {tokens : List Token}
    (h : tokenize source = .ok tokens) : parse source = parseTokens tokens := by
  rw [parse, h]
  rfl

end EquationSolver.Formula
