import EquationSolver.Decimal.Layout
import EquationSolver.Proofs.Decimal.Nearest

/-!
# Positional notation

A decimal that is written out in positional notation is digits with at most one point, and it is read
as the number that it stands for, however its digits lie around the point.
-/

namespace EquationSolver.Decimal

private theorem ofDigits_eq (digits : List Char) : ofDigits digits = Nat.ofDigitChars 10 digits 0 :=
  Nat.ofDigitChars_eq_foldl.symm

private theorem ofDigits_append_zeros (digits : List Char) (k : Nat) :
    ofDigits (digits ++ List.replicate k '0') = ofDigits digits * 10 ^ k := by
  rw [ofDigits_eq, ofDigits_eq, Nat.ofDigitChars_append, Nat.ofDigitChars_replicate_zero, Nat.mul_comm]

private theorem ofDigits_zeros_append (digits : List Char) (k : Nat) :
    ofDigits (List.replicate k '0' ++ digits) = ofDigits digits := by
  rw [ofDigits_eq, ofDigits_eq, Nat.ofDigitChars_append, Nat.ofDigitChars_replicate_zero, Nat.mul_zero]

/-- Whether a text is digits with at most one point that are read as the float nearest to a number. -/
structure Spells (text : List Char) (value : ℚ) : Prop where
  first : ∃ c more, text = c :: more ∧ c.isDigit = true
  numeral : ∀ c ∈ text, c.isDigit = true ∨ c = '.'
  count_le : text.count '.' ≤ 1
  reads : ∃ (digits : Nat) (exponent : Int), (digits * 10 ^ exponent : ℚ) = value ∧
    readUnsigned? text = some (nearestFloat digits exponent)

theorem takeWhile_append_of_head {sort : Char → Bool} {run : List Char} (rest : List Char)
    (hrun : ∀ c ∈ run, sort c = true) (hrest : ∀ c ∈ rest.head?, sort c = false) :
    (run ++ rest).takeWhile sort = run ∧ (run ++ rest).dropWhile sort = rest := by
  rw [List.takeWhile_append_of_pos hrun, List.dropWhile_append_of_pos hrun]
  cases rest with
  | nil => simp
  | cons c rest => simp [hrest c rfl]

section Digits

variable {whole fraction : List Char}

private theorem count_point (h : ∀ c ∈ whole, c.isDigit = true) : whole.count '.' = 0 := by
  apply List.count_eq_zero.mpr
  intro hmem
  have := h _ hmem
  simp at this

private theorem spells_whole (h : ∀ c ∈ whole, c.isDigit = true) (hne : whole ≠ []) :
    Spells whole (ofDigits whole) := by
  obtain ⟨hwhole, hrest⟩ := takeWhile_append_of_head [] h (by simp)
  rw [List.append_nil] at hwhole hrest
  constructor
  · obtain ⟨c, more, rfl⟩ := List.exists_cons_of_ne_nil hne
    exact ⟨c, more, rfl, h c (by simp)⟩
  · intro c hc
    exact .inl (h c hc)
  · simp [count_point h]
  · exact ⟨ofDigits whole, 0, by simp, by simp [readUnsigned?, hwhole, hrest, hne]⟩

private theorem spells_fraction (h : ∀ c ∈ whole, c.isDigit = true) (hne : whole ≠ [])
    (h' : ∀ c ∈ fraction, c.isDigit = true) :
    Spells (whole ++ '.' :: fraction) (ofDigits (whole ++ fraction) * 10 ^ (-fraction.length : Int)) := by
  have hpoint : ∀ c ∈ ('.' :: fraction).head?, c.isDigit = false := by simp
  obtain ⟨hwhole, hrest⟩ := takeWhile_append_of_head _ h hpoint
  obtain ⟨hfraction, hend⟩ := takeWhile_append_of_head [] h' (by simp)
  rw [List.append_nil] at hfraction hend
  constructor
  · obtain ⟨c, more, rfl⟩ := List.exists_cons_of_ne_nil hne
    exact ⟨c, more ++ '.' :: fraction, rfl, h c (by simp)⟩
  · intro c hc
    rcases List.mem_append.mp hc with hc | hc
    · exact .inl (h c hc)
    · rcases List.mem_cons.mp hc with rfl | hc
      · exact .inr rfl
      · exact .inl (h' c hc)
  · simp [List.count_append, count_point h, count_point h']
  · exact ⟨ofDigits (whole ++ fraction), -fraction.length, rfl,
      by simp [readUnsigned?, hwhole, hrest, hfraction, hend, hne]⟩

end Digits

theorem spells_positionalText {digits : List Char} (h : ∀ c ∈ digits, c.isDigit = true)
    (hne : digits ≠ []) (lead : Int) :
    Spells (positionalText digits lead "") (ofDigits digits * 10 ^ (lead + 1 - digits.length)) := by
  have hlength := List.length_pos_iff.mpr hne
  have hzeros : ∀ k, ∀ c ∈ List.replicate k '0', c.isDigit = true := by
    intro k c hc
    rw [List.eq_of_mem_replicate hc]
    rfl
  unfold positionalText
  split
  · next hneg =>
    have hfraction : ∀ c ∈ List.replicate (-lead - 1).toNat '0' ++ digits, c.isDigit = true :=
      List.forall_mem_append.mpr ⟨hzeros _, h⟩
    have hzero : ∀ c ∈ ['0'], c.isDigit = true := by simp
    have hspells := spells_fraction hzero (by simp) hfraction
    have hdigits : ofDigits (['0'] ++ (List.replicate (-lead - 1).toNat '0' ++ digits)) =
        ofDigits digits := by
      rw [← List.append_assoc, ← List.replicate_one, List.replicate_append_replicate,
        ofDigits_zeros_append]
    have hexponent : (-(List.replicate (-lead - 1).toNat '0' ++ digits).length : Int) =
        lead + 1 - digits.length := by
      rw [List.length_append, List.length_replicate]
      omega
    rw [hdigits, hexponent] at hspells
    exact hspells
  · next hnonneg =>
    dsimp only
    split
    · next hfits =>
      have hwhole : ∀ c ∈ digits ++ List.replicate (lead.toNat + 1 - digits.length) '0',
          c.isDigit = true :=
        List.forall_mem_append.mpr ⟨h, hzeros _⟩
      have hspells := spells_whole hwhole (by simp [hne])
      have hexponent : lead + 1 - digits.length = ((lead.toNat + 1 - digits.length : Nat) : Int) := by
        omega
      rw [ofDigits_append_zeros] at hspells
      rw [hexponent, zpow_natCast]
      simpa using hspells
    · next hlong =>
      have hsplit := List.take_append_drop (lead.toNat + 1) digits
      have htake : ∀ c ∈ digits.take (lead.toNat + 1), c.isDigit = true := by
        intro c hc
        exact h c (List.mem_of_mem_take hc)
      have hdrop : ∀ c ∈ digits.drop (lead.toNat + 1), c.isDigit = true := by
        intro c hc
        exact h c (List.mem_of_mem_drop hc)
      have hspells := spells_fraction htake (by simp [hne]) hdrop
      have hexponent : (-(digits.drop (lead.toNat + 1)).length : Int) = lead + 1 - digits.length := by
        rw [List.length_drop]
        omega
      rw [hsplit, hexponent] at hspells
      exact hspells

private theorem exists_significantDigits (d : Decimal) :
    ∃ k, Nat.toDigits 10 d.digits = d.significantDigits ++ List.replicate k '0' := by
  refine ⟨((Nat.toDigits 10 d.digits).reverse.takeWhile (· == '0')).length, ?_⟩
  have hzeros : (Nat.toDigits 10 d.digits).reverse.takeWhile (· == '0') =
      List.replicate ((Nat.toDigits 10 d.digits).reverse.takeWhile (· == '0')).length '0' := by
    apply List.eq_replicate_of_mem
    intro c hc
    simpa using List.all_eq_true.mp List.all_takeWhile c hc
  have hsplit := congrArg List.reverse
    (List.takeWhile_append_dropWhile (p := (· == '0')) (l := (Nat.toDigits 10 d.digits).reverse))
  rw [List.reverse_append, List.reverse_reverse] at hsplit
  rw [← List.reverse_replicate, ← hzeros]
  exact hsplit.symm

theorem isDigit_of_mem_significantDigits {d : Decimal} :
    ∀ c ∈ d.significantDigits, c.isDigit = true := by
  obtain ⟨k, hk⟩ := exists_significantDigits d
  exact fun c hc =>
    Nat.isDigit_of_mem_toDigits (by decide) (by decide) (hk ▸ List.mem_append_left _ hc)

theorem exists_toDigits_eq_cons (n : Nat) (h : 0 < n) :
    ∃ c more, Nat.toDigits 10 n = c :: more ∧ c ≠ '0' := by
  induction n using Nat.strong_induction_on with
  | h n ih =>
    rcases Nat.lt_or_ge n 10 with hlt | hge
    · have hdigit : ∀ m < 10, 0 < m → m.digitChar ≠ '0' := by decide
      exact ⟨_, _, Nat.toDigits_of_lt_base hlt, hdigit n hlt h⟩
    · obtain ⟨c, more, hdiv, hc⟩ := ih (n / 10) (by omega) (by omega)
      rw [Nat.toDigits_of_base_le (by decide) hge, hdiv]
      exact ⟨_, _, rfl, hc⟩

theorem exists_significantDigits_eq_cons {d : Decimal} (hd : 0 < d.digits) :
    ∃ c more, d.significantDigits = c :: more ∧ c ≠ '0' := by
  obtain ⟨k, hk⟩ := exists_significantDigits d
  obtain ⟨c, more, hcons, hc⟩ := exists_toDigits_eq_cons d.digits hd
  rw [hcons] at hk
  cases hdigits : d.significantDigits with
  | nil =>
    rw [hdigits, List.nil_append] at hk
    exact absurd (List.eq_of_mem_replicate (hk ▸ List.mem_cons_self)) hc
  | cons first rest =>
    rw [hdigits, List.cons_append] at hk
    cases hk
    exact ⟨c, rest, rfl, hc⟩

theorem spells_significantDigits {d : Decimal} (hd : 0 < d.digits) :
    Spells (positionalText d.significantDigits d.lead "") (d.digits * 10 ^ d.exponent) := by
  obtain ⟨k, hk⟩ := exists_significantDigits d
  have hvalue : d.digits = ofDigits d.significantDigits * 10 ^ k := by
    rw [← ofDigits_append_zeros, ← hk, ofDigits_eq, Nat.ofDigitChars_ten_toDigits]
  obtain ⟨first, more, hcons, _⟩ := exists_significantDigits_eq_cons hd
  have hne : d.significantDigits ≠ [] := hcons ▸ List.cons_ne_nil first more
  have hspells := spells_positionalText isDigit_of_mem_significantDigits hne d.lead
  have hexponent : d.lead + 1 - d.significantDigits.length = k + d.exponent := by
    rw [lead, hk, List.length_append, List.length_replicate]
    omega
  rw [hexponent, zpow_add₀ (by norm_num), zpow_natCast, ← mul_assoc] at hspells
  rw [hvalue]
  push_cast
  exact hspells

end EquationSolver.Decimal
