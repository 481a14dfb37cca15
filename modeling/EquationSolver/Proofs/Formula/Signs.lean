import EquationSolver.Proofs.Floats.Signs
import EquationSolver.Proofs.Formula.RoundTrip

/-!
# Printing negative numbers

A negative number is written with a minus and read as the sign of a number. No value is changed by
that, unless the number is the base of a power: the minus is then read as the sign of the power.
-/

namespace EquationSolver.Formula

open Grammar Lexer Floats EquationSolver.Formula.Parser

def Negative (value : Float) : Prop :=
  2 ^ 63 ≤ value.toBits.toNat

instance (value : Float) : Decidable (Negative value) :=
  inferInstanceAs (Decidable (2 ^ 63 ≤ value.toBits.toNat))

private theorem unsigned_iff {value : Float} (h : value.isFinite = true) :
    Decimal.Unsigned value ↔ ¬Negative value :=
  ⟨fun hv => not_le.mpr hv.2, fun hv => ⟨h, not_le.mp hv⟩⟩

namespace Node

def signedKinds (value : Float) : List Token.Kind :=
  if Negative value then [.minus, .number (-value)] else [.number value]

/-- A tree that begins with a number, with the minus of the number read as the sign of the tree. -/
def signOutside (value : Float) (tree : Float → Node) : Node :=
  if Negative value then unary .negate (tree (-value)) else tree value

/-- The tree that the text of a tree is read as. -/
def reread : Node → Node
  | number value => signOutside value number
  | var => var
  | unary op operand => unary op operand.reread
  | binary op left right =>
      match op, left with
      | .pow, number value => signOutside value fun v => binary .pow (number v) right.reread
      | _, _ => binary op left.reread right.reread
  | call function argument => call function argument.reread

def signedPhrase : Node → Phrase
  | number value => if Negative value then .signed else .atom
  | binary op left right =>
      match op, left with
      | .pow, number value => if Negative value then .signed else .power
      | _, _ => (binary op left right).phrase
  | t => t.phrase

/-- The numbers that are bases of powers. -/
def bases : Node → List Float
  | number _ | var => []
  | unary _ operand => operand.bases
  | binary op left right =>
      (match op, left with
        | .pow, number value => [value]
        | _, _ => []) ++ left.bases ++ right.bases
  | call _ argument => argument.bases

private theorem splits_number_text {value : Float} (h : value.isFinite = true) {rest : List Char}
    (hrest : Ends rest) :
    Splits ((Decimal.text value).toList ++ rest) rest (signedKinds value) := by
  unfold signedKinds
  split
  · next hsign =>
    have hminus : Splits ('-' :: ((Decimal.text (-value)).toList ++ rest)) _ [.minus] :=
      splits_symbol rfl _
    rw [text_of_negative h hsign]
    exact hminus.trans ((legible_of_unsigned (unsigned_neg h hsign)).splits hrest)
  · next hsign => exact (legible_of_unsigned ((unsigned_iff h).mpr hsign)).splits hrest

section Binary

variable {op : BinaryOp} {left right : Node}

private theorem reread_binary (h : ∀ value, op = .pow → left ≠ number value) :
    (binary op left right).reread = binary op left.reread right.reread := by
  rw [reread]
  exact h

private theorem signedPhrase_binary (h : ∀ value, op = .pow → left ≠ number value) :
    (binary op left right).signedPhrase = (binary op left right).phrase := by
  rw [signedPhrase]
  exact h

private theorem le_signedPhrase {t : Node} {q : Phrase} (hq : q.strength ≤ Phrase.signed.strength)
    (h : q.strength ≤ t.phrase.strength) : q.strength ≤ t.signedPhrase.strength := by
  cases t with
  | number value =>
    rw [signedPhrase]
    split
    · exact hq
    · exact h
  | binary op left right =>
    by_cases hbase : ∃ value, op = .pow ∧ left = number value
    · obtain ⟨value, rfl, rfl⟩ := hbase
      rw [signedPhrase]
      split
      · exact hq
      · exact h
    · rwa [signedPhrase_binary fun value hop hleft => hbase ⟨value, hop, hleft⟩]
  | var | unary | call => exact h

private theorem leftPhrase_le_signed (h : enclosedLeft op left = false)
    (hbase : ∀ value, op = .pow → left ≠ number value) :
    (leftPhrase op).strength ≤ left.signedPhrase.strength := by
  have hle := leftPhrase_le h
  cases op with
  | add | sub | mul | div => exact le_signedPhrase (by decide) hle
  | pow =>
    cases left with
    | number value => exact absurd rfl (hbase value rfl)
    | var | unary | call => exact hle
    | binary op => cases op <;> simp [leftPhrase, phrase, Phrase.strength] at hle

private theorem rightPhrase_le_signed (h : enclosedRight op right = false) :
    (rightPhrase op).strength ≤ right.signedPhrase.strength :=
  le_signedPhrase (by cases op <;> decide) (rightPhrase_le h)

end Binary

private theorem derives_enclose {kinds : List Token.Kind} {p q : Phrase} {t : Node}
    (h : ∀ tokens : List Token, tokens.map Token.kind = kinds → Derives p tokens t) {needed : Bool}
    (hq : needed = false → q.strength ≤ p.strength) {tokens : List Token}
    (htokens : tokens.map Token.kind = encloseKinds needed kinds) : Derives q tokens t := by
  cases needed with
  | false => exact (h tokens htokens).looser (hq rfl)
  | true =>
    obtain ⟨opening, rest, rfl, hopen, hrest⟩ := List.map_eq_cons_iff.mp htokens
    obtain ⟨ts, closings, rfl, hts, hclosings⟩ := List.map_eq_append_iff.mp hrest
    obtain ⟨closing, rfl, hclose⟩ := List.map_eq_singleton_iff.mp hclosings
    obtain ⟨d⟩ := (h ts hts).looser (show Phrase.sum.strength ≤ _ by cases p <;> decide)
    exact Derives.looser ⟨.group hopen d hclose⟩
      (show q.strength ≤ Phrase.atom.strength by cases q <;> decide)

private theorem derives_signOutside {value : Float} {p : Phrase} {tree : Float → Node} {tokens : List Token}
    {kinds : List Token.Kind} (hp : Phrase.signed.strength ≤ p.strength)
    (htokens : tokens.map Token.kind = signedKinds value ++ kinds)
    (h : ∀ (v : Float) (token : Token) (rest : List Token), token.kind = .number v →
      rest.map Token.kind = kinds → Derives p (token :: rest) (tree v)) :
    Derives (if Negative value then .signed else p) tokens (signOutside value tree) := by
  unfold signedKinds at htokens
  unfold signOutside
  split
  · next hsign =>
    rw [if_pos hsign] at htokens
    obtain ⟨sign, ts, rfl, hminus, hts⟩ := List.map_eq_cons_iff.mp htokens
    obtain ⟨token, rest, rfl, hnumber, hrest⟩ := List.map_eq_cons_iff.mp hts
    obtain ⟨d⟩ := (h _ token rest hnumber hrest).looser hp
    exact ⟨.signed .negate hminus d⟩
  · next hsign =>
    rw [if_neg hsign] at htokens
    obtain ⟨token, rest, rfl, hnumber, hrest⟩ := List.map_eq_cons_iff.mp htokens
    exact h _ token rest hnumber hrest

private theorem derives_reread (t : Node) {tokens : List Token}
    (htokens : tokens.map Token.kind = t.kindsBy signedKinds) :
    Derives t.signedPhrase tokens t.reread := by
  induction t generalizing tokens with
  | number value =>
    have hkinds : tokens.map Token.kind = signedKinds value ++ [] := by
      rw [htokens, kindsBy, List.append_nil]
    refine derives_signOutside (by decide) hkinds ?_
    intro v token rest hnumber hrest
    obtain rfl := List.map_eq_nil_iff.mp hrest
    exact ⟨.number hnumber⟩
  | var =>
    obtain ⟨token, rfl, hk⟩ := List.map_eq_singleton_iff.mp htokens
    exact ⟨.var hk⟩
  | unary op operand ih =>
    obtain ⟨sign, ts, rfl, hsign, hts⟩ := List.map_eq_cons_iff.mp htokens
    obtain ⟨d⟩ := derives_enclose (fun _ => ih) (fun h => le_signedPhrase le_rfl (signed_le h)) hts
    exact ⟨.signed op hsign d⟩
  | binary op left right ihl ihr =>
    by_cases hbase : ∃ value, op = .pow ∧ left = number value
    · obtain ⟨value, rfl, rfl⟩ := hbase
      rw [signedPhrase, reread]
      refine derives_signOutside (by decide) htokens ?_
      intro v token rest hnumber hrest
      obtain ⟨sign, us, rfl, hsign, hus⟩ := List.map_eq_cons_iff.mp hrest
      obtain ⟨dr⟩ := derives_enclose (fun _ => ihr) rightPhrase_le_signed hus
      exact ⟨.power (.number hnumber) hsign dr⟩
    · have hbase' : ∀ value, op = .pow → left ≠ number value :=
        fun value hop hleft => hbase ⟨value, hop, hleft⟩
      obtain ⟨ts, rest, rfl, hts, hrest⟩ := List.map_eq_append_iff.mp htokens
      obtain ⟨sign, us, rfl, hsign, hus⟩ := List.map_eq_cons_iff.mp hrest
      obtain ⟨dl⟩ := derives_enclose (fun _ => ihl) (fun h => leftPhrase_le_signed h hbase') hts
      obtain ⟨dr⟩ := derives_enclose (fun _ => ihr) rightPhrase_le_signed hus
      obtain ⟨d, -⟩ := exists_binary hsign dl dr
      have hphrase : (binary op left.reread right.reread).phrase = (binary op left right).phrase := by
        cases op <;> rfl
      rw [reread_binary hbase', signedPhrase_binary hbase', ← hphrase]
      exact ⟨d⟩
  | call function argument ih =>
    obtain ⟨name, rest, rfl, hname, hrest⟩ := List.map_eq_cons_iff.mp htokens
    obtain ⟨opening, rest', rfl, hopen, hrest'⟩ := List.map_eq_cons_iff.mp hrest
    obtain ⟨ts, closings, rfl, hts, hclosings⟩ := List.map_eq_append_iff.mp hrest'
    obtain ⟨closing, rfl, hclose⟩ := List.map_eq_singleton_iff.mp hclosings
    obtain ⟨d⟩ := (ih hts).looser
      (show Phrase.sum.strength ≤ _ by cases argument.signedPhrase <;> decide)
    exact ⟨.call function hname (Builtin.ofName?_name function) hopen d hclose⟩

private theorem mem_numbers_of_mem_bases {t : Node} {value : Float} (h : value ∈ t.bases) :
    value ∈ t.numbers := by
  induction t with
  | number | var => cases h
  | unary op operand ih => exact ih h
  | binary op left right ihl ihr =>
    simp only [bases, numbers, List.mem_append] at h ⊢
    rcases h with (h | h) | h
    · left
      split at h
      · exact h
      · cases h
    · exact .inl (ihl h)
    · exact .inr (ihr h)
  | call function argument ih => exact ih h

/-- Signs change no value, unless a negative number is the base of a power. -/
theorem eval_reread (t : Node) (hfinite : ∀ value ∈ t.numbers, value.isFinite = true)
    (hbases : ∀ value ∈ t.bases, ¬Negative value) (x : Float) : t.reread.eval x = t.eval x := by
  induction t with
  | number value =>
    have hvalue : value.isFinite = true := hfinite value List.mem_cons_self
    rw [reread, signOutside]
    split
    · exact neg_neg_of_isFinite hvalue
    · rfl
  | var => rfl
  | unary op operand ih => exact congrArg op.apply (ih hfinite hbases)
  | binary op left right ihl ihr =>
    simp only [numbers, bases, List.mem_append] at hfinite hbases
    have hr := ihr (fun value hv => hfinite value (.inr hv)) fun value hv => hbases value (.inr hv)
    by_cases hbase : ∃ value, op = .pow ∧ left = number value
    · obtain ⟨value, rfl, rfl⟩ := hbase
      have hsign : ¬Negative value := hbases value (.inl (.inl List.mem_cons_self))
      rw [reread, signOutside, if_neg hsign, eval, hr]
      rfl
    · have hl := ihl (fun value hv => hfinite value (.inl hv))
        fun value hv => hbases value (.inl (.inr hv))
      rw [reread_binary fun value hop hleft => hbase ⟨value, hop, hleft⟩, eval, hl, hr]
      rfl
  | call function argument ih => exact congrArg function.apply (ih hfinite hbases)

end Node

/-- The text of a tree with finite numbers is read, if at all, as the tree that has the minuses of its
numbers as signs. -/
theorem eq_reread_of_parse_text {t u : Node} (h : ∀ value ∈ t.numbers, value.isFinite = true)
    (hu : parse t.text = .ok u) : u = t.reread := by
  obtain ⟨tokens, htokens, hkinds⟩ := Node.tokenize_text_by fun value hv _ hrest =>
    Node.splits_number_text (h value hv) hrest
  rw [parse_eq_of_tokenize htokens] at hu
  obtain ⟨d, -⟩ := derives_of_parseTokens hu
  obtain ⟨e⟩ := (Node.derives_reread t hkinds).looser
    (show Phrase.sum.strength ≤ _ by cases t.signedPhrase <;> decide)
  exact d.unique e

def SameValue (a b : Float) : Prop :=
  (a == b) = true ∨ a.isNaN = true ∧ b.isNaN = true

instance (a b : Float) : Decidable (SameValue a b) :=
  inferInstanceAs (Decidable (_ ∨ _))

private theorem sameValue_refl (a : Float) : SameValue a a := by
  cases hfinite : a.isFinite with
  | true => exact .inl ((beq_iff_value_eq hfinite hfinite).mpr rfl)
  | false =>
    have hunpack : a.toModel.unpack.isFinite = false := hfinite
    have hbeq : (a == a) = (a.toModel.unpack.compare a.toModel.unpack == some .eq) := rfl
    have hnan : a.isNaN = a.toModel.unpack.isNaN := rfl
    rw [SameValue, hbeq, hnan]
    cases ha : a.toModel.unpack with
    | zero | finite =>
      rw [ha] at hunpack
      cases hunpack
    | notANumber => exact .inr ⟨rfl, rfl⟩
    | infinity sign =>
      left
      cases sign <;> rfl

def zerothPower (value : Float) : Node :=
  .binary .pow (.number value) (.number 0.0)

private theorem finite_zerothPower {value : Float} (h : value.isFinite = true) :
    ∀ v ∈ (zerothPower value).numbers, v.isFinite = true := by
  intro v hv
  rcases List.mem_cons.mp hv with rfl | hv
  · exact h
  · rw [List.mem_singleton.mp hv]
    rfl

private theorem parse_text_zerothPower {value : Float} (h : value.isFinite = true) :
    ∃ u, parse (zerothPower value).text = .ok u := by
  obtain ⟨tokens, htokens, hkinds⟩ := Node.tokenize_text_by fun v hv _ hrest =>
    Node.splits_number_text (finite_zerothPower h v hv) hrest
  have hzero : Node.signedKinds 0.0 = [.number 0.0] := if_neg (by decide)
  have hkinds' : tokens.map Token.kind = Node.signedKinds value ++ [.caret, .number 0.0] := by
    rw [hkinds, ← hzero]
    rfl
  have hpower : ∀ (v : Float) (ts : List Token), ts.map Token.kind = [.number v, .caret, .number 0.0] →
      ∃ d : Derivation .signed ts (zerothPower v), d.levels = 3 := by
    intro v ts hts
    obtain ⟨base, ts, rfl, hbase, hts⟩ := List.map_eq_cons_iff.mp hts
    obtain ⟨caret, ts, rfl, hcaret, hts⟩ := List.map_eq_cons_iff.mp hts
    obtain ⟨exponent, rfl, hexponent⟩ := List.map_eq_singleton_iff.mp hts
    exact ⟨.ofPower (.power (.number hbase) hcaret (.ofPower (.ofAtom (.number hexponent)))), rfl⟩
  obtain ⟨u, d, hlevels⟩ : ∃ (u : Node) (d : Derivation .signed tokens u), d.levels ≤ maxDepth := by
    unfold Node.signedKinds at hkinds'
    split at hkinds'
    · obtain ⟨minus, ts, rfl, hminus, hts⟩ := List.map_eq_cons_iff.mp hkinds'
      obtain ⟨d, hd⟩ := hpower _ ts hts
      refine ⟨_, .signed .negate hminus d, ?_⟩
      change d.levels + 1 ≤ maxDepth
      rw [hd]
      decide
    · obtain ⟨d, hd⟩ := hpower _ tokens hkinds'
      exact ⟨_, d, by rw [hd]; decide⟩
  rw [parse_eq_of_tokenize htokens]
  exact ⟨u, (Derivation.ofProduct (.ofSigned d)).parseTokens.1 hlevels⟩

private theorem not_sameValue_zerothPower {value : Float} (h : value.isFinite = true)
    (hsign : Negative value) {u : Node} (hu : parse (zerothPower value).text = .ok u) (x : Float) :
    ¬SameValue (u.eval x) ((zerothPower value).eval x) := by
  have hzero : ¬Negative 0.0 := by decide
  have hread : u.eval x = -1.0 := by
    rw [eq_reread_of_parse_text (finite_zerothPower h) hu, zerothPower, Node.reread,
      Node.signOutside, if_pos hsign, Node.reread, Node.signOutside, if_neg hzero]
    exact congrArg (fun v : Float => -v) (power_zero (-value))
  have hpower : (zerothPower value).eval x = 1.0 := power_zero value
  rw [hread, hpower]
  decide +kernel

/-- The texts of trees mean the same as the trees just if no power has a negative number as its base:
whichever numbers are admitted as bases, all trees keep their values if none of them is negative, and
some tree does not if one is. -/
theorem text_keeps_value_iff (base : Float → Prop) :
    (∀ t : Node, (∀ value ∈ t.numbers, value.isFinite = true) → (∀ value ∈ t.bases, base value) →
        ∀ u, parse t.text = .ok u → ∀ x, SameValue (u.eval x) (t.eval x)) ↔
      ∀ value, value.isFinite = true → base value → ¬Negative value := by
  constructor
  · intro h value hvalue hbase hsign
    obtain ⟨u, hu⟩ := parse_text_zerothPower hvalue
    have hbases : ∀ v ∈ (zerothPower value).bases, base v := by
      intro v hv
      rwa [List.mem_singleton.mp hv]
    exact not_sameValue_zerothPower hvalue hsign hu 0
      (h _ (finite_zerothPower hvalue) hbases u hu 0)
  · intro h t hfinite hbases u hu x
    rw [eq_reread_of_parse_text hfinite hu, Node.eval_reread t hfinite]
    · exact sameValue_refl _
    · intro value hv
      exact h value (hfinite value (Node.mem_numbers_of_mem_bases hv)) (hbases value hv)

/-- The zeroth power of minus two is one, but its text is read as minus one. -/
theorem text_changes_value :
    (∀ value ∈ (zerothPower (-2.0)).numbers, value.isFinite = true) ∧
      ∃ u, parse (zerothPower (-2.0)).text = .ok u ∧
        ¬SameValue (u.eval 0) ((zerothPower (-2.0)).eval 0) := by
  have hfinite : (-2.0 : Float).isFinite = true := by decide +kernel
  have hsign : Negative (-2.0) := by decide +kernel
  obtain ⟨u, hu⟩ := parse_text_zerothPower hfinite
  exact ⟨finite_zerothPower hfinite, u, hu, not_sameValue_zerothPower hfinite hsign hu 0⟩

end EquationSolver.Formula
