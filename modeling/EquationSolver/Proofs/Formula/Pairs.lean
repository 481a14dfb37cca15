import EquationSolver.Proofs.Formula.RoundTrip

/-!
# Pairs of parentheses

The parentheses in the text of a tree match. A pair of them encloses the argument of a function, or an
operand that is put between parentheses for its place: a grouping pair.
-/

namespace EquationSolver.Formula

/-! ## Texts whose parentheses match -/

/-- Whether the parentheses of a text match: none closes that is not open, and none stays open. -/
structure Matched (text : List Char) : Prop where
  closes_le : ∀ front, front <+: text → front.count ')' ≤ front.count '('
  closes_eq : text.count ')' = text.count '('

section Matched

variable {text text' front inner behind : List Char}

theorem matched_of_notMem (hopen : '(' ∉ text) (hclose : ')' ∉ text) : Matched text := by
  refine ⟨?_, by rw [List.count_eq_zero.mpr hopen, List.count_eq_zero.mpr hclose]⟩
  intro front hfront
  rw [List.count_eq_zero.mpr fun hmem => hclose (hfront.subset hmem)]
  exact Nat.zero_le _

private theorem Matched.append (h : Matched text) (h' : Matched text') : Matched (text ++ text') := by
  refine ⟨?_, by rw [List.count_append, List.count_append, h.closes_eq, h'.closes_eq]⟩
  rintro front ⟨rest, hrest⟩
  rcases List.append_eq_append_iff.mp hrest with ⟨part, rfl, -⟩ | ⟨part, rfl, rfl⟩
  · exact h.closes_le front (List.prefix_append _ _)
  · rw [List.count_append, List.count_append, h.closes_eq]
    exact Nat.add_le_add_left (h'.closes_le part (List.prefix_append _ _)) _

private theorem Matched.enclosed (h : Matched text) : Matched ('(' :: (text ++ [')'])) := by
  refine ⟨?_, by simp [List.count_append, h.closes_eq]⟩
  intro front hfront
  rcases List.prefix_cons_iff.mp hfront with rfl | ⟨front, rfl, rest, hrest⟩
  · exact Nat.zero_le _
  rcases List.append_eq_append_iff.mp hrest with ⟨part, rfl, -⟩ | ⟨part, rfl, hpart⟩
  · have := h.closes_le front (List.prefix_append _ _)
    simp
    omega
  · have := (List.sublist_append_left part rest).count_le ')'
    rw [← hpart] at this
    have heq := h.closes_eq
    simp [List.count_append] at this ⊢
    omega

private theorem Matched.enclose (h : Matched text) (needed : Bool) :
    Matched (Node.enclose needed text) := by
  cases needed with
  | false => exact h
  | true => exact h.enclosed

private theorem Matched.not_prefix_close (h : Matched text) (h' : Matched text') :
    ¬text ++ [')'] <+: text' := by
  intro hprefix
  have hle := h'.closes_le _ hprefix
  have heq := h.closes_eq
  simp [List.count_append] at hle
  omega

private theorem Matched.not_open (h : Matched (front ++ '(' :: text)) (htext : text <+: inner) :
    ¬Matched inner := by
  intro hinner
  have hfront := h.closes_le front (List.prefix_append _ _)
  have hle := hinner.closes_le text htext
  have heq := h.closes_eq
  simp [List.count_append] at heq
  omega

private theorem Matched.eq_of_append_close (h : Matched text) (h' : Matched text')
    (heq : text ++ ')' :: front = text' ++ ')' :: behind) : text = text' ∧ front = behind := by
  rcases List.append_eq_append_iff.mp heq with ⟨part, rfl, hpart⟩ | ⟨part, rfl, hpart⟩
  · cases part with
    | nil => simpa using hpart
    | cons c part =>
      obtain rfl : ')' = c := (List.cons.inj hpart).1
      exact absurd ⟨part, by simp⟩ (h.not_prefix_close h')
  · cases part with
    | nil => simpa [eq_comm] using hpart
    | cons c part =>
      obtain rfl : ')' = c := (List.cons.inj hpart).1
      exact absurd ⟨part, by simp⟩ (h'.not_prefix_close h)

/-- A pair of parentheses stands in one of two texts if those of the first one match. -/
theorem Matched.pair_cases (h : Matched text) (hinner : Matched inner)
    (heq : text ++ text' = front ++ '(' :: (inner ++ ')' :: behind)) :
    (∃ rest, text = front ++ '(' :: (inner ++ ')' :: rest) ∧ behind = rest ++ text') ∨
      ∃ rest, front = text ++ rest ∧ text' = rest ++ '(' :: (inner ++ ')' :: behind) := by
  rcases List.append_eq_append_iff.mp heq with ⟨part, rfl, hpart⟩ | ⟨part, rfl, hpart⟩
  · exact .inr ⟨part, rfl, hpart⟩
  cases part with
  | nil => exact .inr ⟨[], by simp, by simpa using hpart.symm⟩
  | cons c part =>
    rw [List.cons_append] at hpart
    obtain ⟨rfl, htail⟩ := List.cons.inj hpart
    rcases List.append_eq_append_iff.mp htail with ⟨rest, rfl, hrest⟩ | ⟨rest, hrest, -⟩
    · cases rest with
      | nil =>
        rw [List.append_nil] at h
        exact absurd hinner (h.not_open List.prefix_rfl)
      | cons c rest =>
        obtain ⟨rfl, hbehind⟩ := List.cons.inj hrest
        exact .inl ⟨rest, rfl, hbehind⟩
    · exact absurd hinner (h.not_open ⟨rest, hrest.symm⟩)

private theorem exists_of_notMem_open (hopen : '(' ∉ text) (heq : text ++ text' = front ++ '(' :: behind) :
    ∃ rest, front = text ++ rest ∧ text' = rest ++ '(' :: behind := by
  rcases List.append_eq_append_iff.mp heq with ⟨part, rfl, hpart⟩ | ⟨part, rfl, hpart⟩
  · exact ⟨part, rfl, hpart⟩
  · cases part with
    | nil => exact ⟨[], by simp, by simpa using hpart.symm⟩
    | cons c part =>
      obtain ⟨rfl, -⟩ := List.cons.inj hpart
      simp at hopen

end Matched

namespace Node

/-! ## Operands and their places -/

/-- Where an operand stands in the text of a node. -/
inductive Place
  | signed
  | left (op : BinaryOp)
  | right (op : BinaryOp)
  | argument

def Place.encloses : Place → Node → Bool
  | .signed, t => t.strength < UnaryOp.strength
  | .left op, t => enclosedLeft op t
  | .right op, t => enclosedRight op t
  | .argument, _ => true

/-- Whether a node has an operand at a place, with the text in front of it and behind it. -/
inductive Operand : Node → Place → Node → List Char → List Char → Prop
  | signed (op : UnaryOp) (t : Node) : Operand (unary op t) .signed t [op.symbol] []
  | left (op : BinaryOp) (t right : Node) : Operand (binary op t right) (.left op) t []
      (' ' :: op.symbol :: ' ' :: enclose (enclosedRight op right) right.chars)
  | right (op : BinaryOp) (left t : Node) : Operand (binary op left t) (.right op) t
      (enclose (enclosedLeft op left) left.chars ++ [' ', op.symbol, ' ']) []
  | argument (function : Builtin) (t : Node) :
      Operand (call function t) .argument t function.name.toList []

/-- Whether the text of a tree has a pair of parentheses around an operand for its place. The pair is
that of an operand of the tree itself, or one in the text of such an operand. -/
inductive Pair : Node → Place → Node → List Char → List Char → Prop
  | here {t place u before after} (h : Operand t place u before after)
      (hgroups : place ≠ .argument) (hencloses : place.encloses u = true) :
      Pair t place u before after
  | inside {t outer s before after place u front behind} (h : Operand t outer s before after)
      (hpair : Pair s place u front behind) (hopen : outer.encloses s = false) :
      Pair t place u (before ++ front) (behind ++ after)
  | enclosed {t outer s before after place u front behind} (h : Operand t outer s before after)
      (hpair : Pair s place u front behind) (hencloses : outer.encloses s = true) :
      Pair t place u (before ++ '(' :: front) (behind ++ ')' :: after)

variable {t u s : Node} {place outer : Place} {before after front behind inner : List Char}

private theorem Operand.chars_eq (h : Operand t place u before after) :
    t.chars = before ++ (enclose (place.encloses u) u.chars ++ after) := by
  cases h <;> simp [chars, Place.encloses]

theorem Pair.chars_eq (h : Pair t place u front behind) :
    t.chars = front ++ '(' :: (u.chars ++ ')' :: behind) := by
  induction h with
  | here h _ hencloses => simp [h.chars_eq, hencloses, enclose]
  | inside h _ hopen ih => simp [h.chars_eq, hopen, enclose, ih]
  | enclosed h _ hencloses ih => simp [h.chars_eq, hencloses, enclose, ih]

def Bare (value : Float) : Prop :=
  '(' ∉ (Decimal.text value).toList ∧ ')' ∉ (Decimal.text value).toList

private theorem notMem_name (function : Builtin) :
    '(' ∉ function.name.toList ∧ ')' ∉ function.name.toList := by
  cases function <;> decide

private theorem matched_chars (h : ∀ value ∈ t.numbers, Bare value) : Matched t.chars := by
  induction t with
  | number value => exact matched_of_notMem (h value (by simp [numbers])).1 (h value (by simp [numbers])).2
  | var => exact matched_of_notMem (by decide) (by decide)
  | unary op operand ih =>
    have hsymbol : Matched [op.symbol] := by
      cases op <;> exact matched_of_notMem (by decide) (by decide)
    exact hsymbol.append ((ih h).enclose _)
  | binary op left right ihl ihr =>
    have hl := ihl fun value hv => h value (List.mem_append_left _ hv)
    have hr := ihr fun value hv => h value (List.mem_append_right _ hv)
    have hsymbol : Matched [' ', op.symbol, ' '] := by
      cases op <;> exact matched_of_notMem (by decide) (by decide)
    exact (hl.enclose _).append (hsymbol.append (hr.enclose _))
  | call function argument ih =>
    have hname := notMem_name function
    exact (matched_of_notMem hname.1 hname.2).append ((ih h).enclose true)

/-- Whether every pair of parentheses of a text that no name stands in front of is that of an operand. -/
def Accounted (t : Node) : Prop :=
  ∀ front inner behind, t.chars = front ++ '(' :: (inner ++ ')' :: behind) → Matched inner →
    (∀ c ∈ front.getLast?, c.isAlpha = false) → ∃ place u, Pair t place u front behind ∧ inner = u.chars

private theorem getLast?_append {c : Char} (before : List Char) (h : c ∈ front.getLast?) :
    c ∈ (before ++ front).getLast? := by
  rw [List.getLast?_append, Option.mem_def.mp h]
  rfl

/-- A pair in the text of an operand is that of the operand, or one that its text has itself. -/
theorem Accounted.operand (hs : Accounted s) (hmatched : Matched s.chars)
    (h : Operand t outer s before after) (hinner : Matched inner)
    (htext : enclose (outer.encloses s) s.chars = front ++ '(' :: (inner ++ ')' :: behind))
    (hlast : ∀ c ∈ front.getLast?, c.isAlpha = false) (hgroups : front = [] → outer ≠ .argument) :
    ∃ place u, Pair t place u (before ++ front) (behind ++ after) ∧ inner = u.chars := by
  cases hencloses : outer.encloses s with
  | false =>
    rw [hencloses] at htext
    obtain ⟨place, u, hpair, heq⟩ := hs front inner behind htext hinner hlast
    exact ⟨place, u, .inside h hpair hencloses, heq⟩
  | true =>
    rw [hencloses] at htext
    change '(' :: (s.chars ++ [')']) = _ at htext
    cases front with
    | nil =>
      obtain ⟨-, htext⟩ := List.cons.inj htext
      obtain ⟨heq, rfl⟩ := hmatched.eq_of_append_close hinner htext
      exact ⟨outer, s, by simpa using Pair.here h (hgroups rfl) hencloses, heq.symm⟩
    | cons c front =>
      rw [List.cons_append] at htext
      obtain ⟨rfl, htail⟩ := List.cons.inj htext
      rcases hmatched.pair_cases hinner htail with ⟨rest, hchars, rfl⟩ | ⟨rest, -, hrest⟩
      · obtain ⟨place, u, hpair, heq⟩ :=
          hs front inner rest hchars hinner fun c hc => hlast c (getLast?_append ['('] hc)
        exact ⟨place, u, by simpa using Pair.enclosed h hpair hencloses, heq⟩
      · cases rest <;> simp at hrest

theorem accounted (h : ∀ value ∈ t.numbers, Bare value) : Accounted t := by
  induction t with
  | number value =>
    intro front inner behind htext _ _
    have hbare := (h value (by simp [numbers])).1
    rw [chars] at htext
    rw [htext] at hbare
    simp at hbare
  | var =>
    intro front inner behind htext _ _
    have hmem : '(' ∈ var.chars := by
      rw [htext]
      simp
    simp [chars] at hmem
  | unary op operand ih =>
    intro front inner behind htext hinner hlast
    have hsymbol : '(' ∉ [op.symbol] := by cases op <;> decide
    obtain ⟨rest, rfl, hrest⟩ := exists_of_notMem_open hsymbol htext
    have hpair := (ih h).operand (matched_chars h) (.signed op operand) hinner hrest
      (fun c hc => hlast c (getLast?_append _ hc)) fun _ => Place.noConfusion
    simpa using hpair
  | binary op left right ihl ihr =>
    intro front inner behind htext hinner hlast
    have hl : ∀ value ∈ left.numbers, Bare value := fun value hv => h value (List.mem_append_left _ hv)
    have hr : ∀ value ∈ right.numbers, Bare value := fun value hv => h value (List.mem_append_right _ hv)
    rcases ((matched_chars hl).enclose (enclosedLeft op left)).pair_cases hinner htext with
      ⟨rest, hrest, rfl⟩ | ⟨rest, rfl, hrest⟩
    · have hpair := (ihl hl).operand (matched_chars hl) (.left op left right) hinner hrest hlast
        fun _ => Place.noConfusion
      simpa using hpair
    · have hsymbol : '(' ∉ [' ', op.symbol, ' '] := by cases op <;> decide
      obtain ⟨front, rfl, hfront⟩ := exists_of_notMem_open hsymbol hrest
      have hpair := (ihr hr).operand (matched_chars hr) (.right op left right) hinner hfront
        (fun c hc => hlast c (getLast?_append _ (getLast?_append _ hc))) fun _ => Place.noConfusion
      simpa using hpair
  | call function argument ih =>
    intro front inner behind htext hinner hlast
    obtain ⟨rest, rfl, hrest⟩ := exists_of_notMem_open (notMem_name function).1 htext
    have hpair := (ih h).operand (matched_chars h) (.argument function argument) hinner hrest
      (fun c hc => hlast c (getLast?_append _ hc))
    have hletter : ∃ c ∈ function.name.toList.getLast?, c.isAlpha = true := by
      cases function <;> exact ⟨_, rfl, by decide⟩
    -- The pair of the argument itself stands behind the last letter of the name.
    have hgroups : rest = [] → Place.argument ≠ .argument := by
      rintro rfl
      obtain ⟨c, hc, hc'⟩ := hletter
      rw [List.append_nil] at hlast
      rw [hlast c hc] at hc'
      cases hc'
    simpa using hpair hgroups

end Node

end EquationSolver.Formula
