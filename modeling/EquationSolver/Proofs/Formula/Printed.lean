import EquationSolver.Formula.Printer
import EquationSolver.Proofs.Formula.Grammar
import EquationSolver.Proofs.Formula.Splitting

/-!
# What the text of a tree says

The text of a tree is split into known tokens, and the grammar derives the tree from them. The
printer's parentheses make each operand the phrase that its place asks for.
-/

namespace EquationSolver.Formula

open Grammar Lexer

namespace Node

def numbers : Node → List Float
  | number value => [value]
  | var => []
  | unary _ operand => operand.numbers
  | binary _ left right => left.numbers ++ right.numbers
  | call _ argument => argument.numbers

def encloseKinds (needed : Bool) (kinds : List Token.Kind) : List Token.Kind :=
  if needed then .openParen :: (kinds ++ [.closeParen]) else kinds

def kinds : Node → List Token.Kind
  | number value => [.number value]
  | var => [.name "x"]
  | unary op operand =>
      op.kind :: encloseKinds (operand.strength < UnaryOp.strength) operand.kinds
  | binary op left right =>
      encloseKinds (enclosedLeft op left) left.kinds ++
        op.kind :: encloseKinds (enclosedRight op right) right.kinds
  | call function argument => .name function.name :: encloseKinds true argument.kinds

/-- The tokens of a tree's text, given those of the texts of numbers. -/
def kindsBy (spelled : Float → List Token.Kind) : Node → List Token.Kind
  | number value => spelled value
  | var => [.name "x"]
  | unary op operand =>
      op.kind :: encloseKinds (operand.strength < UnaryOp.strength) (operand.kindsBy spelled)
  | binary op left right =>
      encloseKinds (enclosedLeft op left) (left.kindsBy spelled) ++
        op.kind :: encloseKinds (enclosedRight op right) (right.kindsBy spelled)
  | call function argument =>
      .name function.name :: encloseKinds true (argument.kindsBy spelled)

private theorem kindsBy_number (t : Node) : t.kindsBy (fun value => [.number value]) = t.kinds := by
  induction t with
  | number | var => rfl
  | unary op operand ih => rw [kindsBy, kinds, ih]
  | binary op left right ihl ihr => rw [kindsBy, kinds, ihl, ihr]
  | call function argument ih => rw [kindsBy, kinds, ih]

def phrase : Node → Phrase
  | number _ | var | call _ _ => .atom
  | unary _ _ => .signed
  | binary .add _ _ | binary .sub _ _ => .sum
  | binary .mul _ _ | binary .div _ _ => .product
  | binary .pow _ _ => .power

/-- The operators on the left spine of a tree, down to the first parentheses of its text. -/
def spine : Node → Nat
  | number _ | var | unary _ _ | call _ _ => 0
  | binary op left _ => (if enclosedLeft op left then 0 else left.spine) + 1

def encloseLevels (needed : Bool) (levels : Nat) : Nat :=
  if needed then levels + 1 else levels

/-- The levels of the parser's budget that reading a tree's text takes. -/
def levels : Node → Nat
  | number _ | var => 1
  | unary _ operand => encloseLevels (operand.strength < UnaryOp.strength) operand.levels + 1
  | binary op left right =>
      max (encloseLevels (enclosedLeft op left) left.levels)
        ((if enclosedLeft op left then 0 else left.spine) + 2 +
          encloseLevels (enclosedRight op right) right.levels)
  | call _ argument => argument.levels + 1

/-- Every list of tokens of the kinds of a tree's text is derived with the tree. -/
def Readable (t : Node) : Prop :=
  ∀ tokens : List Token, tokens.map Token.kind = t.kinds →
    ∃ d : Derivation t.phrase tokens t, d.levels = t.levels ∧ d.spine = t.spine

/-- An operand is read as any phrase that is looser than its text, or than an atom between
parentheses. -/
theorem Readable.enclose {t : Node} (h : Readable t) {needed : Bool} {q : Phrase}
    (hq : needed = false → q.strength ≤ t.phrase.strength) {tokens : List Token}
    (htokens : tokens.map Token.kind = encloseKinds needed t.kinds) :
    ∃ d : Derivation q tokens t, d.levels = encloseLevels needed t.levels ∧
      d.spine = if needed then 0 else t.spine := by
  cases needed with
  | false =>
    obtain ⟨d, hl, hs⟩ := h tokens htokens
    obtain ⟨e, hl', hs'⟩ := d.exists_looser (hq rfl)
    exact ⟨e, hl'.trans hl, hs'.trans hs⟩
  | true =>
    obtain ⟨opening, rest, rfl, hopen, hrest⟩ := List.map_eq_cons_iff.mp htokens
    obtain ⟨ts, closings, rfl, hts, hclosings⟩ := List.map_eq_append_iff.mp hrest
    obtain ⟨closing, rfl, hclose⟩ := List.map_eq_singleton_iff.mp hclosings
    obtain ⟨d, hl, hs⟩ := h ts hts
    obtain ⟨inner, hl', -⟩ := d.exists_looser (show Phrase.sum.strength ≤ _ by cases t.phrase <;> decide)
    obtain ⟨e, hle, hse⟩ := (Derivation.group hopen inner hclose).exists_looser
      (show q.strength ≤ Phrase.atom.strength by cases q <;> decide)
    exact ⟨e, by simp [hle, Derivation.levels, encloseLevels, hl', hl], by simp [hse, Derivation.spine]⟩

def leftPhrase : BinaryOp → Phrase
  | .add | .sub => .sum
  | .mul | .div => .product
  | .pow => .atom

def rightPhrase : BinaryOp → Phrase
  | .add | .sub => .product
  | .mul | .div | .pow => .signed

theorem strength_eq (t : Node) :
    t.strength = if t.phrase = .atom then 99 else t.phrase.strength := by
  cases t with
  | number | var | unary | call => rfl
  | binary op => cases op <;> rfl

theorem leftPhrase_le {op : BinaryOp} {t : Node} (h : enclosedLeft op t = false) :
    (leftPhrase op).strength ≤ t.phrase.strength := by
  have hs := strength_eq t
  cases op <;> cases hp : t.phrase <;>
    simp_all [enclosedLeft, leftPhrase, Phrase.strength, BinaryOp.strength, BinaryOp.grouping]

theorem rightPhrase_le {op : BinaryOp} {t : Node} (h : enclosedRight op t = false) :
    (rightPhrase op).strength ≤ t.phrase.strength := by
  have hs := strength_eq t
  cases op <;> cases hp : t.phrase <;>
    simp_all [enclosedRight, rightPhrase, Phrase.strength, BinaryOp.strength, BinaryOp.grouping]

theorem signed_le {t : Node} (h : decide (t.strength < UnaryOp.strength) = false) :
    Phrase.signed.strength ≤ t.phrase.strength := by
  have hs := strength_eq t
  cases hp : t.phrase <;> simp_all [UnaryOp.strength, Phrase.strength]

theorem exists_binary {op : BinaryOp} {a b : Node} {ts us : List Token} {sign : Token}
    (hsign : sign.kind = op.kind) (left : Derivation (leftPhrase op) ts a)
    (right : Derivation (rightPhrase op) us b) :
    ∃ d : Derivation (binary op a b).phrase (ts ++ sign :: us) (.binary op a b),
      d.levels = max left.levels (left.spine + 2 + right.levels) ∧ d.spine = left.spine + 1 := by
  cases op with
  | add | sub => exact ⟨.sum _ (by simp) left hsign right, rfl, rfl⟩
  | mul | div => exact ⟨.product _ (by simp) left hsign right, rfl, rfl⟩
  | pow => exact ⟨.power left hsign right, rfl, rfl⟩

theorem readable (t : Node) : t.Readable := by
  intro tokens htokens
  induction t generalizing tokens with
  | number value =>
    obtain ⟨token, rfl, hk⟩ := List.map_eq_singleton_iff.mp htokens
    exact ⟨.number hk, rfl, rfl⟩
  | var =>
    obtain ⟨token, rfl, hk⟩ := List.map_eq_singleton_iff.mp htokens
    exact ⟨.var hk, rfl, rfl⟩
  | unary op operand ih =>
    obtain ⟨sign, ts, rfl, hsign, hts⟩ := List.map_eq_cons_iff.mp htokens
    obtain ⟨d, hl, -⟩ := Readable.enclose ih signed_le hts
    exact ⟨.signed op hsign d, by simp [Derivation.levels, levels, hl], rfl⟩
  | binary op left right ihl ihr =>
    obtain ⟨ts, rest, rfl, hts, hrest⟩ := List.map_eq_append_iff.mp htokens
    obtain ⟨sign, us, rfl, hsign, hus⟩ := List.map_eq_cons_iff.mp hrest
    obtain ⟨dl, hll, hsl⟩ := Readable.enclose ihl leftPhrase_le hts
    obtain ⟨dr, hlr, -⟩ := Readable.enclose ihr rightPhrase_le hus
    obtain ⟨d, hl, hs⟩ := exists_binary hsign dl dr
    exact ⟨d, by rw [hl, hll, hsl, hlr, levels], by rw [hs, hsl, spine]⟩
  | call function argument ih =>
    obtain ⟨name, rest, rfl, hname, hrest⟩ := List.map_eq_cons_iff.mp htokens
    obtain ⟨opening, rest', rfl, hopen, hrest'⟩ := List.map_eq_cons_iff.mp hrest
    obtain ⟨ts, closings, rfl, hts, hclosings⟩ := List.map_eq_append_iff.mp hrest'
    obtain ⟨closing, rfl, hclose⟩ := List.map_eq_singleton_iff.mp hclosings
    obtain ⟨d, hl, -⟩ := ih ts hts
    obtain ⟨inner, hl', -⟩ :=
      d.exists_looser (show Phrase.sum.strength ≤ _ by cases argument.phrase <;> decide)
    exact ⟨.call function hname (Builtin.ofName?_name function) hopen inner hclose,
      by simp [Derivation.levels, levels, hl', hl], rfl⟩

/-- Whether the text of a number is a numeral that is read back as the number. -/
def Legible (value : Float) : Prop :=
  ∃ c more, (Decimal.text value).toList = c :: more ∧ (∀ l ∈ c :: more, isNumeral l = true) ∧
    numeral? (c :: more) = some value

theorem splits_enclose {text : List Char} {kinds : List Token.Kind} (needed : Bool)
    {rest : List Char} (h : ∀ rest, Ends rest → Splits (text ++ rest) rest kinds) (hrest : Ends rest) :
    Splits (enclose needed text ++ rest) rest (encloseKinds needed kinds) := by
  cases needed with
  | false => exact h rest hrest
  | true =>
    have hopen : Splits ('(' :: (text ++ ')' :: rest)) (text ++ ')' :: rest) [.openParen] :=
      splits_symbol rfl _
    have hclose : Splits (')' :: rest) rest [.closeParen] := splits_symbol rfl _
    have hinner := h (')' :: rest) (ends_cons (by decide))
    simpa [enclose, encloseKinds] using hopen.trans (hinner.trans hclose)

theorem splits_operator (op : BinaryOp) (rest : List Char) :
    Splits (' ' :: op.symbol :: ' ' :: rest) rest [op.kind] := by
  have hsymbol : Splits (op.symbol :: ' ' :: rest) (' ' :: rest) [op.kind] :=
    splits_symbol (by cases op <;> rfl) _
  simpa using (splits_blank _).trans (hsymbol.trans (splits_blank rest))

theorem splits_function (function : Builtin) (rest : List Char) :
    Splits (function.name.toList ++ '(' :: rest) ('(' :: rest) [.name function.name] := by
  have hends : Ends ('(' :: rest) := ends_cons (by decide)
  have hletters : function.name.toList.all Char.isAlpha = true := by cases function <;> decide
  obtain ⟨c, more, hname⟩ : ∃ c more, function.name.toList = c :: more := by
    cases function <;> exact ⟨_, _, rfl⟩
  have hsplits := splits_name more (by simpa [hname] using hletters) hends
  rwa [← hname, String.ofList_toList, ← List.cons_append, ← hname] at hsplits

private theorem splits_chars_by {spelled : Float → List Token.Kind} (t : Node)
    (h : ∀ value ∈ t.numbers, ∀ rest, Ends rest →
      Splits ((Decimal.text value).toList ++ rest) rest (spelled value))
    (rest : List Char) (hrest : Ends rest) :
    Splits (t.chars ++ rest) rest (t.kindsBy spelled) := by
  induction t generalizing rest with
  | number value => exact h value (by simp [numbers]) rest hrest
  | var => exact splits_name [] (by simp) hrest
  | unary op operand ih =>
    have hsign : Splits _ _ [op.kind] := splits_symbol (c := op.symbol) (by cases op <;> rfl)
      (enclose (operand.strength < UnaryOp.strength) operand.chars ++ rest)
    exact hsign.trans (splits_enclose _ (ih h) hrest)
  | binary op left right ihl ihr =>
    have hl := ihl fun value hv => h value (List.mem_append_left _ hv)
    have hr := ihr fun value hv => h value (List.mem_append_right _ hv)
    have hends : Ends (' ' :: op.symbol :: ' ' :: (enclose (enclosedRight op right) right.chars ++ rest)) :=
      ends_cons (by decide)
    have hleft := splits_enclose (enclosedLeft op left) hl hends
    have hright := splits_enclose (enclosedRight op right) hr hrest
    simpa [chars, kindsBy] using hleft.trans ((splits_operator op _).trans hright)
  | call function argument ih =>
    have hargument := splits_enclose true (ih h) hrest
    simpa [chars, kindsBy, enclose] using (splits_function function _).trans hargument

theorem tokenize_text_by {spelled : Float → List Token.Kind} {t : Node}
    (h : ∀ value ∈ t.numbers, ∀ rest, Ends rest →
      Splits ((Decimal.text value).toList ++ rest) rest (spelled value)) :
    ∃ tokens, tokenize t.text = .ok tokens ∧ tokens.map Token.kind = t.kindsBy spelled := by
  have hsplits := splits_chars_by t h [] ends_nil
  rw [List.append_nil] at hsplits
  exact tokenize_of_splits hsplits

theorem Legible.splits {value : Float} (h : Legible value) {rest : List Char} (hrest : Ends rest) :
    Splits ((Decimal.text value).toList ++ rest) rest [.number value] := by
  obtain ⟨c, more, htext, hnumeral, hvalue⟩ := h
  rw [htext]
  exact splits_number more hnumeral hrest hvalue

/-- The text of a tree whose numbers can be read is split into its tokens. -/
theorem tokenize_text {t : Node} (h : ∀ value ∈ t.numbers, Legible value) :
    ∃ tokens, tokenize t.text = .ok tokens ∧ tokens.map Token.kind = t.kinds := by
  rw [← kindsBy_number]
  exact tokenize_text_by fun value hv rest => (h value hv).splits

end Node

end EquationSolver.Formula
