import EquationSolver.Proofs.Formula.Pairs

/-!
# Needed parentheses

How many parentheses open in front of each token that is none, in tokens that are read as a tree: at least
those of the operands that are looser than their places ask for. The text of a tree has these and one more
in front of each sign that is the right operand of a power. So all pairs but the latter are needed.
-/

namespace EquationSolver.Formula

open Grammar Lexer

/-! ## Openings -/

/-- How many parentheses open right in front of each token that is none, if some are open already. -/
def openings : Nat → List Token.Kind → List Nat
  | _, [] => []
  | opened, kind :: kinds =>
      match kind with
      | .openParen => openings (opened + 1) kinds
      | .closeParen => openings opened kinds
      | _ => opened :: openings 0 kinds

/-- How many parentheses have opened behind the last token that is none. -/
def pending : Nat → List Token.Kind → Nat
  | opened, [] => opened
  | opened, kind :: kinds =>
      match kind with
      | .openParen => pending (opened + 1) kinds
      | .closeParen => pending opened kinds
      | _ => pending 0 kinds

def lifted : List Nat → List Nat
  | [] => []
  | n :: counts => (n + 1) :: counts

def liftedIf (needed : Bool) (counts : List Nat) : List Nat :=
  if needed then lifted counts else counts

abbrev AtLeast (counts counts' : List Nat) : Prop :=
  List.Forall₂ (· ≤ ·) counts counts'

section Openings

variable {counts counts' : List Nat} {kinds kinds' : List Token.Kind}

private theorem openings_append (opened : Nat) (kinds kinds' : List Token.Kind) :
    openings opened (kinds ++ kinds') = openings opened kinds ++ openings (pending opened kinds) kinds' := by
  induction kinds generalizing opened with
  | nil => rfl
  | cons kind kinds ih => cases kind <;> simp [openings, pending, ih]

private theorem pending_append (opened : Nat) (kinds kinds' : List Token.Kind) :
    pending opened (kinds ++ kinds') = pending (pending opened kinds) kinds' := by
  induction kinds generalizing opened with
  | nil => rfl
  | cons kind kinds ih => cases kind <;> simp [pending, ih]

private theorem openings_succ (opened : Nat) (kinds : List Token.Kind) :
    openings (opened + 1) kinds = lifted (openings opened kinds) := by
  induction kinds generalizing opened with
  | nil => rfl
  | cons kind kinds ih => cases kind <;> simp [openings, lifted, ih]

private theorem openings_enclosed (kinds : List Token.Kind) :
    openings 0 (.openParen :: (kinds ++ [.closeParen])) = lifted (openings 0 kinds) := by
  change openings 1 (kinds ++ [.closeParen]) = _
  rw [openings_append, openings_succ]
  exact List.append_nil _

private theorem openings_sign (op : UnaryOp) (opened : Nat) (kinds : List Token.Kind) :
    openings opened (op.kind :: kinds) = opened :: openings 0 kinds := by
  cases op <;> rfl

private theorem openings_operator (op : BinaryOp) (opened : Nat) (kinds : List Token.Kind) :
    openings opened (op.kind :: kinds) = opened :: openings 0 kinds := by
  cases op <;> rfl

private theorem length_lifted (counts : List Nat) : (lifted counts).length = counts.length := by
  cases counts <;> rfl

private theorem length_liftedIf (needed : Bool) (counts : List Nat) :
    (liftedIf needed counts).length = counts.length := by
  cases needed
  · rfl
  · exact length_lifted counts

private theorem liftedIf_cons (needed : Bool) (n : Nat) (counts : List Nat) :
    liftedIf needed (n :: counts) = (n + needed.toNat) :: counts := by
  cases needed <;> rfl

private theorem length_openings (opened : Nat) (kinds : List Token.Kind) :
    (openings opened kinds).length = (openings 0 kinds).length := by
  induction opened with
  | zero => rfl
  | succ opened ih => rw [openings_succ, length_lifted, ih]

private theorem AtLeast.lifted_iff : AtLeast (lifted counts) (lifted counts') ↔ AtLeast counts counts' := by
  cases counts <;> cases counts' <;> simp [lifted]

private theorem AtLeast.of_lifted (h : AtLeast (lifted counts) counts') : AtLeast counts counts' := by
  cases counts with
  | nil => exact h
  | cons n counts =>
    cases h with
    | cons hle h => exact .cons (Nat.le_of_succ_le hle) h

private theorem AtLeast.of_lifted_right (h : AtLeast (0 :: counts) (lifted counts')) :
    AtLeast (0 :: counts) counts' := by
  cases counts' with
  | nil => cases h
  | cons n counts' =>
    cases h with
    | cons _ h => exact .cons (Nat.zero_le n) h

private theorem AtLeast.of_liftedIf {needed needed' : Bool} (h : AtLeast (liftedIf needed' counts) counts')
    (himp : needed = true → needed' = true) : AtLeast (liftedIf needed counts) counts' := by
  cases needed with
  | false =>
    cases needed' with
    | false => exact h
    | true => exact h.of_lifted
  | true =>
    rw [himp rfl] at h
    exact h

private theorem AtLeast.of_append {more more' : List Nat} (h : AtLeast (counts ++ more) (counts' ++ more'))
    (hlength : counts'.length = counts.length) : AtLeast counts counts' ∧ AtLeast more more' := by
  induction counts generalizing counts' with
  | nil =>
    rw [List.length_eq_zero_iff.mp hlength] at h ⊢
    exact ⟨.nil, h⟩
  | cons n counts ih =>
    cases counts' with
    | nil => cases hlength
    | cons n' counts' =>
      cases h with
      | cons hle h =>
        obtain ⟨hleft, hright⟩ := ih h (Nat.succ.inj hlength)
        exact ⟨.cons hle hleft, hright⟩

end Openings

namespace Node

def Place.asks : Place → Node → Bool
  | .signed, t => t.phrase.strength < Phrase.signed.strength
  | .left op, t => t.phrase.strength < (leftPhrase op).strength
  | .right op, t => t.phrase.strength < (rightPhrase op).strength
  | .argument, _ => true

/-- How many parentheses must open in front of each token of a tree that is none. -/
def needs : Node → List Nat
  | number _ | var => [0]
  | unary _ t => 0 :: liftedIf (Place.signed.asks t) t.needs
  | binary op left right =>
      liftedIf ((Place.left op).asks left) left.needs ++
        0 :: liftedIf ((Place.right op).asks right) right.needs
  | call _ t => 0 :: liftedIf (Place.argument.asks t) t.needs

/-- Whether tokens are too few for a tree, or have the parentheses that it needs as a phrase. -/
def Bounded (p : Phrase) (kinds : List Token.Kind) (t : Node) : Prop :=
  (openings 0 kinds).length ≤ t.needs.length ∧ ((openings 0 kinds).length = t.needs.length →
    AtLeast (liftedIf (t.phrase.strength < p.strength) t.needs) (openings 0 kinds))

variable {p q : Phrase} {t a b : Node} {kinds kinds' : List Token.Kind}

private theorem Bounded.atLeast (h : Bounded p kinds t)
    (hlength : (openings 0 kinds).length = t.needs.length) :
    AtLeast t.needs (openings 0 kinds) := by
  have hneeds : AtLeast (liftedIf false t.needs) (openings 0 kinds) :=
    (h.2 hlength).of_liftedIf Bool.noConfusion
  exact hneeds

private theorem Bounded.looser (h : Bounded p kinds t) (hle : q.strength ≤ p.strength) :
    Bounded q kinds t := by
  refine ⟨h.1, fun hlength => (h.2 hlength).of_liftedIf ?_⟩
  simp only [decide_eq_true_eq]
  exact fun hlt => lt_of_lt_of_le hlt hle

private theorem Bounded.operator (op : BinaryOp) (h : Bounded (leftPhrase op) kinds a)
    (h' : Bounded (rightPhrase op) kinds' b) (hp : p.strength ≤ (binary op a b).phrase.strength) :
    Bounded p (kinds ++ op.kind :: kinds') (binary op a b) := by
  have hloose : decide ((binary op a b).phrase.strength < p.strength) = false :=
    decide_eq_false (not_lt.mpr hp)
  have hle := h.1
  have hle' := h'.1
  rw [Bounded, openings_append, openings_operator, hloose]
  simp only [needs, List.length_append, List.length_cons, length_liftedIf]
  refine ⟨by omega, fun hlength => ?_⟩
  exact List.rel_append (h.2 (by omega)) (.cons (Nat.zero_le _) (h'.2 (by omega)))

private theorem Bounded.implied (h : Bounded p kinds a) (h' : Bounded q kinds' b) (r : Phrase) :
    Bounded r (kinds ++ kinds') (binary .mul a b) := by
  have hle := h.1
  have hle' := h'.1
  rw [Bounded, openings_append, List.length_append, length_openings (pending 0 kinds)]
  simp only [needs, List.length_append, List.length_cons, length_liftedIf]
  exact ⟨by omega, fun hlength => by omega⟩

private theorem Bounded.sign {op : UnaryOp} (h : Bounded .signed kinds t) :
    Bounded .signed (op.kind :: kinds) (unary op t) := by
  have hle := h.1
  rw [Bounded, openings_sign]
  simp only [needs, List.length_cons, length_liftedIf]
  exact ⟨by omega, fun hlength => .cons le_rfl (h.2 (by omega))⟩

private theorem Bounded.enclosed (h : Bounded .sum kinds t) :
    Bounded .atom (.openParen :: (kinds ++ [.closeParen])) t := by
  have hle := h.1
  rw [Bounded, openings_enclosed, length_lifted]
  refine ⟨hle, fun hlength => ?_⟩
  have hlifted : AtLeast (liftedIf true t.needs) (lifted (openings 0 kinds)) :=
    AtLeast.lifted_iff.mpr (h.atLeast hlength)
  exact hlifted.of_liftedIf fun _ => rfl

private theorem Bounded.argument (h : Bounded .sum kinds t) (function : Builtin) (name : String) :
    Bounded .atom (.name name :: .openParen :: (kinds ++ [.closeParen])) (call function t) := by
  have hname : openings 0 (.name name :: .openParen :: (kinds ++ [.closeParen])) =
      0 :: lifted (openings 0 kinds) := congrArg (0 :: ·) (openings_enclosed kinds)
  have hle := h.1
  rw [Bounded, hname]
  simp only [needs, Place.asks, List.length_cons, length_liftedIf, length_lifted]
  refine ⟨by omega, fun hlength => .cons le_rfl ?_⟩
  exact AtLeast.lifted_iff.mpr (h.atLeast (by omega))

private theorem bounded_leaf {kind : Token.Kind} (hkind : openings 0 [kind] = [0]) (ht : t.needs = [0])
    (hphrase : t.phrase = .atom) : Bounded .atom [kind] t := by
  rw [Bounded, hkind, ht, hphrase]
  exact ⟨le_rfl, fun _ => .cons le_rfl .nil⟩

/-- Tokens that are read as a tree have the parentheses that it needs, or they leave out a product. -/
theorem bounded_of_derivation {ts : List Token} (d : Derivation p ts t) :
    Bounded p (ts.map Token.kind) t := by
  induction d with
  | ofProduct _ ih | ofSigned _ ih | ofPower _ ih | ofAtom _ ih => exact ih.looser (by decide)
  | sum op additive _ spelled _ ihl ihr =>
    rw [List.map_append, List.map_cons, spelled]
    rcases additive with rfl | rfl <;> exact Bounded.operator _ ihl ihr le_rfl
  | product op multiplicative _ spelled _ ihl ihr =>
    rw [List.map_append, List.map_cons, spelled]
    rcases multiplicative with rfl | rfl <;> exact Bounded.operator _ ihl ihr le_rfl
  | juxtaposed _ _ _ ihl ihr =>
    rw [List.map_append]
    exact ihl.implied ihr _
  | signed op spelled _ ih =>
    rw [List.map_cons, spelled]
    exact ih.sign
  | power _ spelled _ ihl ihr =>
    rw [List.map_append, List.map_cons, spelled]
    exact Bounded.operator .pow ihl ihr le_rfl
  | number h | var h | pi h | euler h =>
    rw [List.map_singleton, h]
    exact bounded_leaf rfl rfl rfl
  | group opens _ closes ih =>
    rw [List.map_cons, List.map_append, List.map_singleton, opens, closes]
    exact ih.enclosed
  | call function h _ opens _ closes ih =>
    rw [List.map_cons, List.map_cons, List.map_append, List.map_singleton, h, opens, closes]
    exact ih.argument function _

/-! ## The text of a tree -/

def Ended (kinds : List Token.Kind) : Prop :=
  ∀ opened, pending opened kinds = 0

private theorem Ended.append (h : Ended kinds') (kinds : List Token.Kind) : Ended (kinds ++ kinds') := by
  intro opened
  rw [pending_append]
  exact h _

private theorem Ended.enclosed (h : Ended kinds) : Ended (.openParen :: (kinds ++ [.closeParen])) := by
  intro opened
  change pending (opened + 1) (kinds ++ [.closeParen]) = 0
  rw [pending_append, h]
  rfl

def HasOpenings (text : List Char) (counts : List Nat) : Prop :=
  ∃ kinds, (∀ rest, Ends rest → Splits (text ++ rest) rest kinds) ∧ Ended kinds ∧
    openings 0 kinds = counts

section HasOpenings

variable {text text' : List Char} {counts counts' : List Nat}

private theorem hasOpenings_leaf {kind : Token.Kind}
    (h : ∀ rest, Ends rest → Splits (text ++ rest) rest [kind]) (hended : Ended [kind])
    (hkind : openings 0 [kind] = [0]) : HasOpenings text [0] :=
  ⟨[kind], h, hended, hkind⟩

private theorem HasOpenings.enclose (h : HasOpenings text counts) (needed : Bool) :
    HasOpenings (enclose needed text) (liftedIf needed counts) := by
  obtain ⟨kinds, hsplits, hended, rfl⟩ := h
  refine ⟨encloseKinds needed kinds, fun rest => splits_enclose needed hsplits, ?_, ?_⟩
  · cases needed with
    | false => exact hended
    | true => exact hended.enclosed
  · cases needed with
    | false => rfl
    | true => exact openings_enclosed kinds

private theorem HasOpenings.sign (h : HasOpenings text counts) (op : UnaryOp) :
    HasOpenings (op.symbol :: text) (0 :: counts) := by
  obtain ⟨kinds, hsplits, hended, rfl⟩ := h
  refine ⟨op.kind :: kinds, fun rest hrest => ?_, hended.append [op.kind], openings_sign op 0 kinds⟩
  have hsign : Splits (op.symbol :: (text ++ rest)) (text ++ rest) [op.kind] :=
    splits_symbol (by cases op <;> rfl) _
  exact hsign.trans (hsplits rest hrest)

private theorem HasOpenings.operator (h : HasOpenings text counts) (op : BinaryOp)
    (h' : HasOpenings text' counts') :
    HasOpenings (text ++ ' ' :: op.symbol :: ' ' :: text') (counts ++ 0 :: counts') := by
  obtain ⟨kinds, hsplits, hended, rfl⟩ := h
  obtain ⟨kinds', hsplits', hended', rfl⟩ := h'
  refine ⟨kinds ++ ([op.kind] ++ kinds'), fun rest hrest => ?_, (hended'.append _).append _, ?_⟩
  · have hleft := hsplits (' ' :: op.symbol :: ' ' :: (text' ++ rest)) (ends_cons (by decide))
    simpa using hleft.trans ((splits_operator op _).trans (hsplits' rest hrest))
  · rw [openings_append, hended, List.singleton_append, openings_operator]

private theorem HasOpenings.call (h : HasOpenings text counts) (function : Builtin) :
    HasOpenings (function.name.toList ++ Node.enclose true text) (0 :: liftedIf true counts) := by
  obtain ⟨kinds, hsplits, hended, heq⟩ := h.enclose true
  refine ⟨.name function.name :: kinds, fun rest hrest => ?_, hended.append [.name function.name], ?_⟩
  · simpa [Node.enclose] using (splits_function function _).trans (hsplits rest hrest)
  · exact congrArg (0 :: ·) heq

end HasOpenings

/-- Whether an operand is a sign that is the right operand of a power. -/
def Spare (place : Place) (t : Node) : Prop :=
  place = .right .pow ∧ ∃ op operand, t = unary op operand

private theorem exists_unary (h : t.phrase = .signed) : ∃ op operand, t = unary op operand := by
  cases t with
  | unary op operand => exact ⟨op, operand, rfl⟩
  | number | var | call => cases h
  | binary op => cases op <;> cases h

/-- An operand is put between parentheses for nothing only if it is a sign that is the right operand of a
power. -/
theorem asks_of_encloses {place : Place} (h : place.encloses t = true) (hspare : ¬Spare place t) :
    place.asks t = true := by
  have hs := strength_eq t
  cases place with
  | argument => rfl
  | signed =>
    cases hp : t.phrase <;> simp_all [Place.encloses, Place.asks, Phrase.strength, UnaryOp.strength]
  | left op =>
    cases op <;> cases hp : t.phrase <;>
      simp_all [Place.encloses, Place.asks, enclosedLeft, leftPhrase, Phrase.strength, BinaryOp.strength,
        BinaryOp.grouping]
  | right op =>
    have hsign : op = .pow → t.phrase ≠ .signed := by
      rintro rfl hp
      exact hspare ⟨rfl, exists_unary hp⟩
    cases op <;> cases hp : t.phrase <;>
      simp_all [Place.encloses, Place.asks, enclosedRight, rightPhrase, Phrase.strength, BinaryOp.strength,
        BinaryOp.grouping]

private theorem encloses_of_asks {place : Place} (h : place.asks t = true) : place.encloses t = true := by
  by_contra hencloses
  have hopen : place.encloses t = false := Bool.eq_false_iff.mpr hencloses
  cases place with
  | argument => exact hencloses rfl
  | signed => exact (of_decide_eq_true h).not_ge (signed_le hopen)
  | left op => exact (of_decide_eq_true h).not_ge (leftPhrase_le hopen)
  | right op => exact (of_decide_eq_true h).not_ge (rightPhrase_le hopen)

private theorem asks_left (op : BinaryOp) (t : Node) : (Place.left op).asks t = enclosedLeft op t := by
  apply Bool.eq_iff_iff.mpr
  constructor
  · exact encloses_of_asks
  · intro h
    have hencloses : (Place.left op).encloses t = true := h
    apply asks_of_encloses hencloses
    rintro ⟨⟨⟩, -⟩

/-- In the text of a tree no more parentheses open in front of the first token than must. -/
theorem exists_openings {t : Node} (h : ∀ value ∈ t.numbers, Legible value) :
    ∃ n counts counts', HasOpenings t.chars (n :: counts) ∧ t.needs = n :: counts' ∧
      counts.length = counts'.length := by
  induction t with
  | number value =>
    have hsplits : ∀ rest, Ends rest →
        Splits ((Decimal.text value).toList ++ rest) rest [.number value] :=
      fun rest => (h value (by simp [numbers])).splits
    exact ⟨0, [], [], hasOpenings_leaf hsplits (fun _ => rfl) rfl, rfl, rfl⟩
  | var =>
    have hsplits : ∀ rest, Ends rest → Splits (['x'] ++ rest) rest [.name "x"] :=
      fun rest => splits_name [] (by simp)
    exact ⟨0, [], [], hasOpenings_leaf hsplits (fun _ => rfl) rfl, rfl, rfl⟩
  | unary op operand ih =>
    obtain ⟨n, counts, counts', hopenings, hneeds, hlength⟩ := ih h
    refine ⟨0, _, _, (hopenings.enclose _).sign op, rfl, ?_⟩
    rw [hneeds, length_liftedIf, length_liftedIf, List.length_cons, List.length_cons, hlength]
  | binary op left right ihl ihr =>
    obtain ⟨n, counts, counts', hopenings, hneeds, hlength⟩ :=
      ihl fun value hv => h value (List.mem_append_left _ hv)
    obtain ⟨m, more, more', hopenings', hneeds', hlength'⟩ :=
      ihr fun value hv => h value (List.mem_append_right _ hv)
    have htext := (hopenings.enclose (enclosedLeft op left)).operator op
      (hopenings'.enclose (enclosedRight op right))
    rw [liftedIf_cons] at htext
    refine ⟨_, _, _, htext, by rw [needs, asks_left, hneeds, liftedIf_cons]; rfl, ?_⟩
    simp [hneeds', length_liftedIf, hlength, hlength']
  | call function argument ih =>
    obtain ⟨n, counts, counts', hopenings, hneeds, hlength⟩ := ih h
    refine ⟨0, _, _, hopenings.call function, rfl, ?_⟩
    rw [hneeds, length_liftedIf, length_liftedIf, List.length_cons, List.length_cons, hlength]

/-! ## A pair that is left out -/

variable {u s : Node} {place outer : Place} {before after front behind inner : List Char}

private theorem Operand.numbers_subset (h : Operand t place u before after) : u.numbers ⊆ t.numbers := by
  cases h with
  | signed | argument => exact List.Subset.refl _
  | left => exact List.subset_append_left _ _
  | right => exact List.subset_append_right _ _

private theorem Operand.exists_openings (h : Operand t place u before after)
    (hnumbers : ∀ value ∈ t.numbers, Legible value) :
    ∃ less less' more more', t.needs = less' ++ (liftedIf (place.asks u) u.needs ++ more') ∧
      less.length = less'.length ∧ more.length = more'.length ∧
      ∀ needed text counts, (place = .argument → needed = true) → HasOpenings text counts →
        HasOpenings (before ++ (enclose needed text ++ after))
          (less ++ (liftedIf needed counts ++ more)) := by
  cases h with
  | signed op =>
    refine ⟨[0], [0], [], [], by simp [needs], rfl, rfl, fun needed text counts _ htext => ?_⟩
    simpa using (htext.enclose needed).sign op
  | left op t right =>
    obtain ⟨n, counts, counts', hopenings, hneeds, hlength⟩ :=
      Node.exists_openings fun value hv => hnumbers value (List.mem_append_right _ hv)
    refine ⟨[], [], _, _, rfl, rfl, ?_, fun needed text counts _ htext =>
      (htext.enclose needed).operator op (hopenings.enclose _)⟩
    simp [hneeds, length_liftedIf, hlength]
  | right op left t =>
    obtain ⟨n, counts, counts', hopenings, hneeds, hlength⟩ :=
      Node.exists_openings fun value hv => hnumbers value (List.mem_append_left _ hv)
    refine ⟨liftedIf (enclosedLeft op left) (n :: counts) ++ [0],
      liftedIf ((Place.left op).asks left) left.needs ++ [0], [], [], by simp [needs], ?_, rfl,
      fun needed text counts' _ htext => ?_⟩
    · simp [hneeds, length_liftedIf, hlength]
    · simpa using (hopenings.enclose (enclosedLeft op left)).operator op (htext.enclose needed)
  | argument function =>
    refine ⟨[0], [0], [], [], by simp [needs], rfl, rfl, fun needed text counts hneeded htext => ?_⟩
    rw [hneeded rfl]
    simpa using htext.call function

/-- A text in which too few parentheses open in front of some token for it to be read as a tree. -/
def Lacks (t : Node) (text : List Char) : Prop :=
  ∃ counts, HasOpenings text counts ∧ counts.length = t.needs.length ∧ ¬AtLeast t.needs counts

private theorem Operand.lacks (h : Operand t place u before after)
    (hnumbers : ∀ value ∈ t.numbers, Legible value) {needed : Bool} {text : List Char}
    {counts : List Nat} (hneeded : place = .argument → needed = true) (htext : HasOpenings text counts)
    (hlength : counts.length = u.needs.length)
    (hlacks : ¬AtLeast (liftedIf (place.asks u) u.needs) (liftedIf needed counts)) :
    Lacks t (before ++ (enclose needed text ++ after)) := by
  obtain ⟨less, less', more, more', hneeds, hless, hmore, hwhole⟩ := h.exists_openings hnumbers
  refine ⟨_, hwhole needed text counts hneeded htext, ?_, fun hatLeast => hlacks ?_⟩
  · simp [hneeds, length_liftedIf, hless, hmore, hlength]
  · rw [hneeds] at hatLeast
    have hoperand := (hatLeast.of_append hless).2
    exact (hoperand.of_append (by simp [length_liftedIf, hlength])).1

/-- Without a pair that an operand needs, too few parentheses open in front of the operand. -/
theorem Pair.lacks (h : Pair t place u front behind) (hspare : ¬Spare place u)
    (hnumbers : ∀ value ∈ t.numbers, Legible value) : Lacks t (front ++ (u.chars ++ behind)) := by
  induction h with
  | @here t place u before after h hgroups hencloses =>
    obtain ⟨n, counts, counts', hopenings, hneeds, hlength⟩ :=
      exists_openings fun value hv => hnumbers value (h.numbers_subset hv)
    have hneeded : place = .argument → false = true := fun hplace => absurd hplace hgroups
    apply h.lacks hnumbers hneeded hopenings
    · rw [hneeds, List.length_cons, List.length_cons, hlength]
    · rw [asks_of_encloses hencloses hspare, hneeds]
      intro hatLeast
      have hle := (List.forall₂_cons.mp hatLeast).1
      exact absurd hle (Nat.not_succ_le_self n)
  | @inside t outer s before after place u front behind h hpair hopen ih =>
    obtain ⟨counts, hopenings, hlength, hlacks⟩ :=
      ih hspare fun value hv => hnumbers value (h.numbers_subset hv)
    have hneeded : outer = .argument → false = true := by
      rintro rfl
      cases hopen
    have hasks : outer.asks s = false := by
      apply Bool.eq_false_iff.mpr
      intro hasks
      rw [encloses_of_asks hasks] at hopen
      cases hopen
    have hwhole := h.lacks hnumbers hneeded hopenings hlength (by rwa [hasks])
    simpa [enclose] using hwhole
  | @enclosed t outer s before after place u front behind h hpair hencloses ih =>
    obtain ⟨counts, hopenings, hlength, hlacks⟩ :=
      ih hspare fun value hv => hnumbers value (h.numbers_subset hv)
    have hless : ¬AtLeast (liftedIf (outer.asks s) s.needs) (lifted counts) := by
      intro hatLeast
      by_cases hsign : Spare outer s
      · obtain ⟨-, op, operand, rfl⟩ := hsign
        have hneeds : AtLeast (liftedIf false (unary op operand).needs) (lifted counts) :=
          hatLeast.of_liftedIf Bool.noConfusion
        exact hlacks hneeds.of_lifted_right
      · rw [asks_of_encloses hencloses hsign] at hatLeast
        exact hlacks (AtLeast.lifted_iff.mp hatLeast)
    have hneeded : outer = .argument → true = true := fun _ => rfl
    have hwhole := h.lacks hnumbers hneeded hopenings hlength hless
    simpa [enclose] using hwhole

private theorem Legible.bare {value : Float} (h : Legible value) : Bare value := by
  obtain ⟨c, more, htext, hnumeral, -⟩ := h
  rw [Bare, htext]
  constructor
  · intro hopen
    exact absurd (hnumeral _ hopen) (by decide)
  · intro hclose
    exact absurd (hnumeral _ hclose) (by decide)

private theorem Lacks.parse_ne {text : List Char} (h : Lacks t text) :
    parse (String.ofList text) ≠ .ok t := by
  intro hparse
  obtain ⟨counts, ⟨kinds, hsplits, -, rfl⟩, hlength, hlacks⟩ := h
  have hwhole := hsplits [] ends_nil
  rw [List.append_nil] at hwhole
  obtain ⟨tokens, htokens, rfl⟩ := tokenize_of_splits hwhole
  rw [parse_eq_of_tokenize htokens] at hparse
  obtain ⟨d, -⟩ := derives_of_parseTokens hparse
  exact hlacks ((bounded_of_derivation d).atLeast hlength)

end Node

/-- Each pair of parentheses in the text of a tree that is no call's is that of an operand. Without it the
text is not read as the tree, unless the operand is a sign that is the right operand of a power. -/
theorem only_needed_parentheses (t : Node) (hnumbers : ∀ value ∈ t.numbers, Decimal.Unsigned value)
    {front inner behind : List Char} (htext : t.text.toList = front ++ '(' :: (inner ++ ')' :: behind))
    (hmatched : Matched inner) (hgroups : ∀ c ∈ front.getLast?, c.isAlpha = false) :
    (∃ place operand, Node.Pair t place operand front behind ∧ inner = operand.chars) ∧
      ∀ place operand, Node.Pair t place operand front behind → ¬Node.Spare place operand →
        parse (String.ofList (front ++ (inner ++ behind))) ≠ .ok t := by
  have hlegible : ∀ value ∈ t.numbers, Node.Legible value :=
    fun value hv => legible_of_unsigned (hnumbers value hv)
  rw [Node.text, String.toList_ofList] at htext
  refine ⟨Node.accounted (fun value hv => (hlegible value hv).bare) front inner behind htext hmatched
    hgroups, fun place operand hpair hspare => ?_⟩
  have hinner : inner = operand.chars := by
    rw [hpair.chars_eq] at htext
    simpa [eq_comm] using htext
  rw [hinner]
  exact (hpair.lacks hspare hlegible).parse_ne

theorem only_needed_parentheses_difference :
    (∀ value ∈ difference.numbers, Decimal.Unsigned value) ∧
      difference.text = "(-2.5) ^ x - (x - 0.1)" ∧
      parse "(-2.5) ^ x - x - 0.1" ≠ .ok difference := by
  have hnumbers : ∀ value ∈ difference.numbers, Decimal.Unsigned value := by
    unfold Decimal.Unsigned
    decide +kernel
  have hpair : Node.Pair difference (.right .sub) (.binary .sub .var (.number 0.1)) _ [] :=
    .here (.right .sub _ _) Node.Place.noConfusion (by decide)
  have hmatched : Matched (Node.binary .sub .var (.number 0.1)).chars :=
    matched_of_notMem (by decide +kernel) (by decide +kernel)
  have htext : difference.text.toList = _ := String.toList_ofList.trans hpair.chars_eq
  obtain ⟨-, hneeded⟩ := only_needed_parentheses difference hnumbers htext hmatched (by simp)
  refine ⟨hnumbers, by decide +kernel, ?_⟩
  have hspare : ¬Node.Spare (.right .sub) (.binary .sub .var (.number 0.1)) := by
    rintro ⟨⟨⟩, -⟩
  exact hneeded _ _ hpair hspare

end EquationSolver.Formula
