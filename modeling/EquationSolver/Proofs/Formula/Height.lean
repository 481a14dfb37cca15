import EquationSolver.Proofs.Formula.RoundTrip

/-!
# How tall the trees are that are read

The parser's budget counts the levels that are open while it reads, and gives back those of an operand
once the operand is read. What follows an operand in its run still puts further nodes on top of it, so
the budget bounds the height of trees by the square of the number of levels, and this bound is met.
-/

namespace EquationSolver.Formula

open Grammar Lexer EquationSolver.Formula.Parser

/-- The greatest height of a tree that takes a number of levels: one more level is one more node, and
in front of it one more operator than before. -/
def tallest : Nat → Nat
  | 0 => 0
  | 1 => 1
  | n + 2 => tallest (n + 1) + (n + 1)

private theorem tallest_le_succ (n : Nat) : tallest n ≤ tallest (n + 1) := by
  cases n with
  | zero => decide
  | succ n => exact Nat.le_add_right _ _

private theorem tallest_mono {m n : Nat} (h : m ≤ n) : tallest m ≤ tallest n := by
  induction h with
  | refl => exact Nat.le_refl _
  | step _ ih => exact Nat.le_trans ih (tallest_le_succ _)

private theorem two_mul_tallest (n : Nat) : 2 * tallest (n + 1) = n * (n + 1) + 2 := by
  induction n with
  | zero => rfl
  | succ n ih =>
    rw [tallest, Nat.mul_add, ih]
    simp only [Nat.add_mul, Nat.mul_add]
    omega

private theorem tallest_maxDepth : tallest maxDepth = 32641 := by
  have h := two_mul_tallest 255
  rw [show maxDepth = 255 + 1 from rfl]
  omega

/-- How tall a run may be: on top of its first operand, which leaves one level unused, stands one
node for every operator of the run. -/
def Bounded (levels spine height : Nat) : Prop :=
  levels = 1 ∧ height = 1 ∨ spine + 2 ≤ levels ∧ height ≤ tallest (levels - 1) + 1 + spine

private theorem Bounded.le_tallest {levels spine height : Nat} (h : Bounded levels spine height) :
    height ≤ tallest levels := by
  rcases h with ⟨rfl, rfl⟩ | ⟨hs, hh⟩
  · decide
  · obtain ⟨n, rfl⟩ : ∃ n, levels = n + 2 := ⟨levels - 2, by omega⟩
    simp only [tallest, Nat.add_succ_sub_one] at hh ⊢
    omega

private theorem Bounded.node {levels spine height : Nat} (h : Bounded levels spine height)
    (hpos : 0 < levels) :
    Bounded (levels + 1) 0 (height + 1) := by
  have := h.le_tallest
  exact .inr ⟨by omega, by simpa using this⟩

private theorem Bounded.operator {levels spine height levels' spine' height' : Nat}
    (h : Bounded levels spine height) (h' : Bounded levels' spine' height') (hpos : 0 < levels') :
    Bounded (max levels (spine + 2 + levels')) (spine + 1) (max height height' + 1) := by
  have hleft : tallest (levels - 1) ≤ tallest (max levels (spine + 2 + levels') - 1) :=
    tallest_mono (by omega)
  have hright : tallest levels' ≤ tallest (max levels (spine + 2 + levels') - 1) :=
    tallest_mono (by omega)
  have hr := h'.le_tallest
  right
  constructor
  · omega
  · rcases h with ⟨-, hh⟩ | ⟨-, hh⟩ <;> omega

namespace Grammar.Derivation

variable {p : Phrase} {ts : List Token} {t : Node}

private theorem height_le_length (d : Derivation p ts t) : t.height ≤ ts.length := by
  induction d with
  | ofProduct _ ih | ofSigned _ ih | ofPower _ ih | ofAtom _ ih => exact ih
  | sum _ _ left _ right ihl ihr | product _ _ left _ right ihl ihr | power left _ right ihl ihr
  | juxtaposed left _ right ihl ihr =>
    have hl := List.length_pos_iff.mpr left.ne_nil
    have hr := List.length_pos_iff.mpr right.ne_nil
    simp only [Node.height, List.length_append, List.length_cons] at *
    omega
  | signed _ _ _ ih => simpa [Node.height] using ih
  | number | var | pi | euler => simp [Node.height]
  | group _ _ _ ih | call _ _ _ _ _ _ ih =>
    simp only [Node.height, List.length_append, List.length_cons] at *
    omega

private theorem bounded (d : Derivation p ts t) : Bounded d.levels d.spine t.height := by
  -- The height alone is no invariant: a group gives its spine back, an operator adds to it.
  induction d with
  | ofProduct _ ih | ofSigned _ ih | ofPower _ ih | ofAtom _ ih => exact ih
  | sum _ _ _ _ right ihl ihr | product _ _ _ _ right ihl ihr | power _ _ right ihl ihr
  | juxtaposed _ _ right ihl ihr => exact ihl.operator ihr right.levels_pos
  | signed _ _ d ih | call _ _ _ _ d _ ih => exact ih.node d.levels_pos
  | number | var | pi | euler => exact .inl ⟨rfl, rfl⟩
  | group _ d _ ih =>
    have := ih.le_tallest
    right
    constructor
    · exact Nat.succ_le_succ d.levels_pos
    · simp only [levels, spine, Nat.add_sub_cancel]
      omega

end Grammar.Derivation

/-- The height of a tree that is read is bounded by the number of its tokens and by the budget. -/
theorem height_le_of_parse {source : String} {tokens : List Token} {t : Node}
    (hsplit : tokenize source = .ok tokens) (h : parse source = .ok t) :
    t.height ≤ tokens.length ∧ t.height ≤ tallest maxDepth := by
  have hparse : parseTokens tokens = .ok t := by simpa [parse, hsplit, Except.bind] using h
  obtain ⟨d, hd⟩ := derives_of_parseTokens hparse
  exact ⟨d.height_le_length, Nat.le_trans d.bounded.le_tallest (tallest_mono hd)⟩

/-! ## The tallest trees -/

def raised : Nat → Node → Node
  | 0, t => t
  | k + 1, t => .binary .add (raised k t) .var

/-- A tree that is as tall as its levels allow: every call has as many operators behind it as there
are levels left. -/
def tower : Nat → Node
  | 0 => .var
  | n + 1 => raised n (.call .abs (tower n))

private theorem height_raised (k : Nat) (t : Node) : (raised k t).height = t.height + k := by
  induction k with
  | zero => rfl
  | succ k ih =>
    have hpos : 0 < t.height := by cases t <;> simp [Node.height]
    simp only [raised, Node.height, ih]
    omega

private theorem height_tower (n : Nat) : (tower n).height = tallest (n + 1) := by
  induction n with
  | zero => rfl
  | succ n ih =>
    rw [tower, height_raised, Node.height, ih, tallest]
    omega

private theorem numbers_tower (n : Nat) : (tower n).numbers = [] := by
  have hraised : ∀ k t, t.numbers = [] → (raised k t).numbers = [] := by
    intro k t ht
    induction k with
    | zero => exact ht
    | succ k ih => simp [raised, Node.numbers, ih]
  induction n with
  | zero => rfl
  | succ n ih => exact hraised n _ ih

private theorem enclosedLeft_add (t : Node) : Node.enclosedLeft .add t = false := by
  have hs := t.strength_eq
  cases hp : t.phrase <;>
    simp_all [Node.enclosedLeft, Phrase.strength, BinaryOp.strength, BinaryOp.grouping]

private theorem levels_raised_call (k : Nat) (function : Builtin) (t : Node) :
    (raised k (.call function t)).levels ≤ max (t.levels + 1) (k + 2) ∧
      (raised k (.call function t)).spine = k := by
  induction k with
  | zero => exact ⟨Nat.le_max_left .., rfl⟩
  | succ k ih =>
    have hvar : Node.enclosedRight .add .var = false := rfl
    have hlevels := ih.1
    simp only [raised, Node.levels, Node.spine, enclosedLeft_add, Node.encloseLevels, hvar, ih.2,
      Bool.false_eq_true, if_false]
    exact ⟨by omega, trivial⟩

private theorem levels_tower (n : Nat) : (tower n).levels ≤ n + 1 := by
  induction n with
  | zero => decide
  | succ n ih =>
    have h := (levels_raised_call n .abs (tower n)).1
    rw [tower]
    omega

private theorem parse_tower {n : Nat} (h : n < maxDepth) : parse (tower n).text = .ok (tower n) :=
  (parse_text_of_legible (by simp [numbers_tower])).1 (Nat.le_trans (levels_tower n) h)

/-! ## The tallest trees of few tokens -/

def negated : Nat → Node
  | 0 => .var
  | n + 1 => .unary .negate (negated n)

def scaled (n : Nat) : Node :=
  .binary .mul (negated n) .var

def scaledText (n : Nat) : String :=
  String.ofList (List.replicate n '-' ++ ['x', ' ', 'x'])

private theorem height_negated (n : Nat) : (negated n).height = n + 1 := by
  induction n with
  | zero => rfl
  | succ n ih => rw [negated, Node.height, ih]

private theorem height_scaled (n : Nat) : (scaled n).height = n + 2 := by
  rw [scaled, Node.height, height_negated, Node.height]
  omega

private theorem derivation_negated {n : Nat} {last : Token} (hlast : last.kind = .name "x")
    {ts : List Token} (hts : ts.map Token.kind = List.replicate n .minus) :
    ∃ d : Derivation .signed (ts ++ [last]) (negated n), d.levels = n + 1 ∧ d.spine = 0 := by
  induction n generalizing ts with
  | zero =>
    obtain rfl : ts = [] := by simpa using hts
    exact ⟨.ofPower (.ofAtom (.var hlast)), rfl, rfl⟩
  | succ n ih =>
    obtain ⟨sign, us, rfl, hsign, hus⟩ := List.map_eq_cons_iff.mp hts
    obtain ⟨d, hlevels, -⟩ := ih hus
    exact ⟨.signed .negate hsign d, by simp [Derivation.levels, hlevels], rfl⟩

private theorem splits_signs (n : Nat) (rest : List Char) :
    Splits (List.replicate n '-' ++ rest) rest (List.replicate n .minus) := by
  induction n with
  | zero => exact Splits.refl rest
  | succ n ih => exact (splits_symbol (c := '-') rfl _).trans ih

private theorem parse_scaledText {n : Nat} (h : n < maxDepth) :
    ∃ tokens, tokenize (scaledText n) = .ok tokens ∧ tokens.length = n + 2 ∧
      parse (scaledText n) = .ok (scaled n) := by
  have hfirst : Splits ['x', ' ', 'x'] [' ', 'x'] [.name "x"] :=
    splits_name [] (by simp) (ends_cons (by decide))
  have hsecond : Splits ['x'] [] [.name "x"] := splits_name [] (by simp) ends_nil
  obtain ⟨tokens, htokens, hkinds⟩ := tokenize_of_splits
    ((splits_signs n _).trans (hfirst.trans ((splits_blank _).trans hsecond)))
  obtain ⟨ts, rest, rfl, hts, hrest⟩ := List.map_eq_append_iff.mp hkinds
  obtain ⟨last, rest, rfl, hlast, hrest⟩ := List.map_eq_cons_iff.mp hrest
  obtain ⟨first, rfl, hname⟩ := List.map_eq_singleton_iff.mp hrest
  obtain ⟨left, hlevels, hspine⟩ := derivation_negated hlast hts
  have hmeet : Juxtaposed (ts ++ [last]).getLast? first := by simp [Juxtaposed, hname]
  let d : Derivation .product (ts ++ [last] ++ [first]) (scaled n) :=
    .juxtaposed (.ofSigned left) hmeet (.ofAtom (.var hname))
  have hd : d.levels = max (n + 1) 3 := by
    simp [d, Derivation.levels, Derivation.spine, hlevels, hspine]
  have hlength : ts.length = n := by simpa using congrArg List.length hts
  refine ⟨_, htokens, by simp [hlength], ?_⟩
  rw [parse, scaledText, htokens]
  have hparse := (Derivation.ofProduct d).parseTokens.1 (by
    rw [Derivation.levels, hd]
    unfold maxDepth at *
    omega)
  simpa [Except.bind] using hparse

/-- A tree that is read may be taller than there are levels. The trees stay below that height for the
texts whose derivations within the budget have such trees, for all texts of up to `n` tokens just if
there are as many levels as tokens, and the height that none of them exceeds is about the square of
the number of levels. -/
theorem height_le_maxDepth_iff (n : Nat) :
    (∀ source, (∀ t, parse source = .ok t → t.height ≤ maxDepth) ↔
      ∀ tokens t, tokenize source = .ok tokens → ∀ d : Derivation .sum tokens t,
        d.levels ≤ maxDepth → t.height ≤ maxDepth) ∧
    ((∀ source tokens t, tokenize source = .ok tokens → tokens.length ≤ n → parse source = .ok t →
      t.height ≤ maxDepth) ↔ n ≤ maxDepth) ∧
    ((∀ source t, parse source = .ok t → t.height ≤ n) ↔ 32641 ≤ n) := by
  refine ⟨?_, ?_, ?_⟩
  · intro source
    constructor
    · intro h tokens t htokens d hd
      apply h t
      rw [parse, htokens]
      exact d.parseTokens.1 hd
    · intro h t hparse
      obtain ⟨tokens, htokens, hread⟩ := bind_eq_ok hparse
      obtain ⟨d, hd⟩ := derives_of_parseTokens hread
      exact h tokens t htokens d hd
  · constructor
    · intro h
      apply Nat.le_of_not_lt
      intro hlt
      obtain ⟨tokens, htokens, hlength, hparse⟩ := parse_scaledText (n := 255) (by decide)
      have hheight := h _ tokens _ htokens (by unfold maxDepth at hlt; omega) hparse
      rw [height_scaled] at hheight
      exact absurd hheight (by decide)
    · intro h source tokens t htokens hle hparse
      have := (height_le_of_parse htokens hparse).1
      omega
  · constructor
    · intro h
      have hheight := h _ _ (parse_tower (n := 255) (by decide))
      rw [height_tower] at hheight
      exact Nat.le_trans (Nat.le_of_eq tallest_maxDepth.symm) hheight
    · intro h source t hparse
      obtain ⟨tokens, htokens, -⟩ := bind_eq_ok hparse
      have := (height_le_of_parse htokens hparse).2
      rw [tallest_maxDepth] at this
      omega

theorem maxDepth_lt_height_scaled :
    parse (scaledText 255) = .ok (scaled 255) ∧ maxDepth < (scaled 255).height := by
  obtain ⟨-, -, -, hparse⟩ := parse_scaledText (n := 255) (by decide)
  refine ⟨hparse, ?_⟩
  rw [height_scaled]
  decide

end EquationSolver.Formula
