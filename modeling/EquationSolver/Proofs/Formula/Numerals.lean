import EquationSolver.Proofs.Decimal.Correct
import EquationSolver.Proofs.Formula.Coverage

/-!
# Number literals

Where a token begins with a digit or a point, the lexeme is the longest run of digits and points with the
longest exponent behind it. It is a number if the run has a digit and at most one point, and then it has
the value of the number that it spells, correctly rounded.
-/

namespace EquationSolver.Formula

namespace Lexer

open EquationSolver.Text (isBlank)
open EquationSolver.Decimal

/-- Whether a part is the longest text of a sort at the head of a text, or is empty for want of one. -/
structure Longest (sort : List Char → Prop) (text part : List Char) : Prop where
  initial : part <+: text
  of_sort : part = [] ∨ sort part
  length_le : ∀ other, other <+: text → sort other → other.length ≤ part.length

def IsRun (text : List Char) : Prop :=
  ∀ c ∈ text, c.isDigit = true ∨ c = '.'

/-- The text of an exponent, with the power of ten that it stands for. -/
inductive Scales : List Char → ℤ → Prop
  | plain {mark : Char} {digits : List Char} (h : IsExponent mark [] digits) :
      Scales (mark :: digits) (ofDigits digits)
  | plus {mark : Char} {digits : List Char} (h : IsExponent mark ['+'] digits) :
      Scales (mark :: '+' :: digits) (ofDigits digits)
  | minus {mark : Char} {digits : List Char} (h : IsExponent mark ['-'] digits) :
      Scales (mark :: '-' :: digits) (-(ofDigits digits))

/-- How many digits of a run stand behind its point. -/
def places (run : List Char) : Nat :=
  (run.dropWhile (· ≠ '.')).tail.length

/-- The number of a run that is multiplied by a power of ten: its digits as a whole number, moved behind
the point again. -/
def number (run : List Char) (power : ℤ) : ℚ :=
  ofDigits (run.filter Char.isDigit) * 10 ^ (power - places run)

/-! ## Lexemes -/

private theorem longest_takeWhile (text : List Char) : Longest IsRun text (text.takeWhile isNumeral) := by
  have hsort : ∀ c, isNumeral c = true ↔ c.isDigit = true ∨ c = '.' := by
    intro c
    simp [isNumeral]
  refine ⟨List.takeWhile_prefix _, .inr fun c hc => (hsort c).mp (List.mem_takeWhile_imp hc), ?_⟩
  rintro other ⟨rest, rfl⟩ hother
  rw [List.takeWhile_append_of_pos fun c hc => (hsort c).mpr (hother c hc), List.length_append]
  exact Nat.le_add_right _ _

private theorem IsExponent.scales {mark : Char} {sign digits : List Char}
    (h : IsExponent mark sign digits) :
    ∃ power, Scales (mark :: (sign ++ digits)) power := by
  rcases h.sign_eq with rfl | rfl | rfl
  · exact ⟨_, .plain h⟩
  · exact ⟨_, .plus h⟩
  · exact ⟨_, .minus h⟩

private theorem Scales.isExponent {text : List Char} {power : ℤ} (h : Scales text power) :
    ∃ mark sign digits, IsExponent mark sign digits ∧ text = mark :: (sign ++ digits) := by
  cases h with
  | plain h => exact ⟨_, _, _, h, rfl⟩
  | plus h => exact ⟨_, _, _, h, rfl⟩
  | minus h => exact ⟨_, _, _, h, rfl⟩

private theorem longest_exponentPart (text : List Char) :
    Longest (fun part => ∃ power, Scales part power) text (exponentPart text) := by
  refine ⟨initial_exponentPart text, ?_, ?_⟩
  · by_cases hnil : exponentPart text = []
    · exact .inl hnil
    · obtain ⟨mark, sign, digits, hexponent, heq⟩ := exists_isExponent hnil
      rw [heq]
      exact .inr hexponent.scales
  · rintro other ⟨rest, rfl⟩ ⟨power, hscales⟩
    obtain ⟨mark, sign, digits, hexponent, rfl⟩ := hscales.isExponent
    rw [List.cons_append, List.append_assoc, hexponent.exponentPart_eq]
    simp only [List.length_cons, List.length_append]
    omega

/-! ## Values -/

section Values

variable {run ex : List Char} {power : ℤ}

private theorem IsRun.split (h : IsRun run) (hcount : run.count '.' ≤ 1) :
    (∀ c ∈ run, c.isDigit = true) ∨ ∃ whole fraction, run = whole ++ '.' :: fraction ∧
      (∀ c ∈ whole, c.isDigit = true) ∧ ∀ c ∈ fraction, c.isDigit = true := by
  have hdigit : ∀ part : List Char, (∀ c ∈ part, c ∈ run) → part.count '.' = 0 →
      ∀ c ∈ part, c.isDigit = true := by
    intro part hpart hnone c hc
    refine (h c (hpart c hc)).resolve_right ?_
    rintro rfl
    exact List.count_eq_zero.mp hnone hc
  by_cases hpoint : '.' ∈ run
  · right
    obtain ⟨whole, fraction, rfl⟩ := List.append_of_mem hpoint
    simp only [List.count_append, List.count_cons_self] at hcount
    refine ⟨whole, fraction, rfl, hdigit whole ?_ (by omega), hdigit fraction ?_ (by omega)⟩
    · intro c hc
      exact List.mem_append_left _ hc
    · intro c hc
      exact List.mem_append_right _ (List.mem_cons_of_mem _ hc)
  · exact .inl (hdigit run (fun c hc => hc) (List.count_eq_zero.mpr hpoint))

/-- The text of an exponent, or none, with the power of ten that it stands for. -/
def Ending (ex : List Char) (power : ℤ) : Prop :=
  ex = [] ∧ power = 0 ∨ Scales ex power

private theorem Scales.read (h : Scales ex power) : ∃ mark rest, ex = mark :: rest ∧
    (mark = 'e' ∨ mark = 'E') ∧ readExponent? rest = some power := by
  have hunsigned : ∀ {mark : Char} {sign digits : List Char}, IsExponent mark sign digits →
      readExponent?.unsigned? digits = some (ofDigits digits) := by
    intro mark sign digits h
    exact if_pos ⟨h.digits_ne, List.all_eq_true.mpr h.digit⟩
  cases h with
  | @plain mark digits h =>
    refine ⟨_, _, rfl, h.mark_eq, ?_⟩
    unfold readExponent?
    split
    · exact absurd (h.digit '-' List.mem_cons_self) (by decide)
    · exact absurd (h.digit '+' List.mem_cons_self) (by decide)
    · rw [hunsigned h]
      rfl
  | plus h => exact ⟨_, _, rfl, h.mark_eq, by rw [readExponent?, hunsigned h]; rfl⟩
  | minus h => exact ⟨_, _, rfl, h.mark_eq, by rw [readExponent?, hunsigned h]; rfl⟩

private theorem Ending.head (h : Ending ex power) : ∀ c ∈ ex.head?, c.isDigit = false ∧ c ≠ '.' := by
  rcases h with ⟨rfl, rfl⟩ | hscales
  · simp
  · obtain ⟨mark, rest, rfl, rfl | rfl, -⟩ := hscales.read <;> simp

private theorem Ending.point_notMem (h : Ending ex power) : '.' ∉ ex := by
  rcases h with ⟨rfl, rfl⟩ | hscales
  · exact List.not_mem_nil
  · obtain ⟨mark, sign, digits, hexponent, rfl⟩ := hscales.isExponent
    intro hmem
    rw [List.mem_cons, List.mem_append] at hmem
    rcases hmem with hmark | hsign | hdigit
    · rcases hexponent.mark_eq with rfl | rfl <;> cases hmark
    · rcases hexponent.sign_eq with rfl | rfl | rfl <;> simp at hsign
    · exact absurd (hexponent.digit '.' hdigit) (by decide)

private theorem readUnsigned?_digits (h : ∀ c ∈ run, c.isDigit = true) (hending : Ending ex power) :
    readUnsigned? (run ++ ex) =
      if run = [] then none else some (nearestFloat (ofDigits run) power) := by
  obtain ⟨hrun, hrest⟩ := takeWhile_append_of_head ex h fun c hc => (hending.head c hc).1
  rcases hending with ⟨rfl, rfl⟩ | hscales
  · rw [List.append_nil] at hrun hrest
    simp [readUnsigned?, hrun, hrest]
  · obtain ⟨mark, rest, rfl, rfl | rfl, hread⟩ := hscales.read
    all_goals simp [readUnsigned?, hrun, hrest, hread]

private theorem readUnsigned?_point {whole fraction : List Char} (h : ∀ c ∈ whole, c.isDigit = true)
    (h' : ∀ c ∈ fraction, c.isDigit = true) (hending : Ending ex power) :
    readUnsigned? (whole ++ '.' :: (fraction ++ ex)) = if whole ++ fraction = [] then none
      else some (nearestFloat (ofDigits (whole ++ fraction)) (power - fraction.length)) := by
  have hpoint : ∀ c ∈ ('.' :: (fraction ++ ex)).head?, c.isDigit = false := by simp
  obtain ⟨hwhole, hrest⟩ := takeWhile_append_of_head _ h hpoint
  obtain ⟨hfraction, hend⟩ := takeWhile_append_of_head ex h' fun c hc => (hending.head c hc).1
  rcases hending with ⟨rfl, rfl⟩ | hscales
  · rw [List.append_nil] at hwhole hrest hfraction hend
    simp [readUnsigned?, hwhole, hrest, hfraction, hend]
  · obtain ⟨mark, rest, rfl, rfl | rfl, hread⟩ := hscales.read
    all_goals simp [readUnsigned?, hwhole, hrest, hfraction, hend, hread]

/-- A run with at most one point is read if it has a digit, as the float nearest to its number. -/
theorem IsRun.readUnsigned?_eq (h : IsRun run) (hcount : run.count '.' ≤ 1)
    (hending : Ending ex power) :
    readUnsigned? (run ++ ex) = if run.filter Char.isDigit = [] then none
      else some (nearestFloat (ofDigits (run.filter Char.isDigit)) (power - places run)) := by
  have hkept : ∀ part : List Char, (∀ c ∈ part, c.isDigit = true) →
      part.filter Char.isDigit = part := fun part => List.filter_eq_self.mpr
  have hdropped : ∀ part rest : List Char, (∀ c ∈ part, c.isDigit = true) →
      (part ++ rest).dropWhile (· ≠ '.') = rest.dropWhile (· ≠ '.') := by
    intro part rest hpart
    refine List.dropWhile_append_of_pos fun c hc => decide_eq_true ?_
    rintro rfl
    exact absurd (hpart '.' hc) (by decide)
  rcases h.split hcount with hdigit | ⟨whole, fraction, rfl, hwhole, hfraction⟩
  · have hplaces : places run = 0 := by
      have hnil := hdropped run [] hdigit
      rw [List.append_nil] at hnil
      rw [places, hnil]
      rfl
    rw [hkept run hdigit, hplaces, readUnsigned?_digits hdigit hending]
    simp
  · have hplaces : places (whole ++ '.' :: fraction) = fraction.length := by
      rw [places, hdropped whole _ hwhole]
      simp
    have hfilter : (whole ++ '.' :: fraction).filter Char.isDigit = whole ++ fraction := by
      rw [List.filter_append, List.filter_cons_of_neg (by decide), hkept whole hwhole,
        hkept fraction hfraction]
    rw [hfilter, hplaces, List.append_assoc, List.cons_append,
      readUnsigned?_point hwhole hfraction hending]

/-- Whether a run of digits and points is a numeral. -/
def Valid (run : List Char) : Prop :=
  (∃ c ∈ run, c.isDigit = true) ∧ run.count '.' ≤ 1

private theorem numeral?_eq {c : Char} {more : List Char} (h : IsRun (c :: more))
    (hending : Ending ex power) :
    (Valid (c :: more) → ∃ value, numeral? (c :: more ++ ex) = some value ∧
      read? (c :: more ++ ex) = some value ∧ CorrectlyRounded (number (c :: more) power) value) ∧
    (¬Valid (c :: more) → numeral? (c :: more ++ ex) = none) := by
  have hfirst := h c List.mem_cons_self
  have hpoints : (c :: more ++ ex).count '.' = (c :: more).count '.' := by
    rw [List.count_append, List.count_eq_zero.mpr hending.point_notMem, Nat.add_zero]
  have hread : (c :: more).count '.' ≤ 1 → numeral? (c :: more ++ ex) = read? (c :: more ++ ex) ∧
      read? (c :: more ++ ex) = if (c :: more).filter Char.isDigit = [] then none
        else some (nearestFloat (ofDigits ((c :: more).filter Char.isDigit))
          (power - places (c :: more))) := by
    intro hcount
    constructor
    · rw [numeral?, hpoints, if_neg (by omega)]
    · rw [List.cons_append, read?_eq_readUnsigned? _ hfirst, ← List.cons_append]
      exact h.readUnsigned?_eq hcount hending
  constructor
  · rintro ⟨hdigit, hcount⟩
    obtain ⟨hnumeral, hvalue⟩ := hread hcount
    have hne : (c :: more).filter Char.isDigit ≠ [] := by
      obtain ⟨l, hl, hdigit⟩ := hdigit
      exact List.ne_nil_of_mem (List.mem_filter.mpr ⟨hl, hdigit⟩)
    rw [if_neg hne] at hvalue
    refine ⟨_, hnumeral.trans hvalue, hvalue, ?_⟩
    exact correctlyRounded_nearestFloat _ _
  · intro hinvalid
    by_cases hcount : (c :: more).count '.' ≤ 1
    · obtain ⟨hnumeral, hvalue⟩ := hread hcount
      have hnil : (c :: more).filter Char.isDigit = [] := by
        by_contra hne
        obtain ⟨l, hl⟩ := List.exists_mem_of_ne_nil _ hne
        exact hinvalid ⟨⟨l, List.mem_filter.mp hl⟩, hcount⟩
      rw [hnumeral, hvalue, if_pos hnil]
    · rw [numeral?, hpoints, if_pos (by omega)]

end Values

/-! ## Items -/

def stopOf (first : Nat) (tokens : List Token) : Nat :=
  (tokens.getLast?.map (·.span.stop)).getD first

private theorem stopOf_cons (first : Nat) (token : Token) (tokens : List Token) :
    stopOf first (token :: tokens) = stopOf token.span.stop tokens := by
  rw [stopOf, stopOf, List.getLast?_cons]
  cases tokens.getLast? <;> rfl

private theorem stop_of_classify {start : Nat} {c : Char} {more : List Char} {token : Token}
    (h : classify start c more = .ok token) : token.span.stop = start + (more.length + 1) := by
  unfold classify at h
  split at h
  · split at h <;> cases h
    rfl
  split at h
  · cases h
    rfl
  · split at h <;> cases h
    rfl

private theorem items_behind {source : List Char} {tokens : List Token} {first place : Nat} {c : Char}
    {rest : List Char} (htokens : tokens.map .ok <+: items first (source.drop first))
    (hle : stopOf first tokens ≤ place)
    (hblank : ∀ i l, stopOf first tokens ≤ i → i < place → source[i]? = some l → isBlank l = true)
    (hplace : source.drop place = c :: rest) (hc : isBlank c = false) :
    (items first (source.drop first))[tokens.length]? =
      some (classify place c (continuation c rest)) := by
  induction tokens generalizing first with
  | nil =>
    have hfirst : stopOf first [] = first := rfl
    rw [hfirst] at hle hblank
    have hlt : place < source.length := by
      rw [← List.drop_eq_nil_iff.not.trans not_le, hplace]
      exact List.cons_ne_nil c rest
    -- What stands in front of the place are the blanks.
    have hsplit : source.drop first = (source.drop first).take (place - first) ++ c :: rest := by
      rw [← hplace, ← Nat.add_sub_of_le hle, ← List.drop_drop, Nat.add_sub_cancel_left,
        List.take_append_drop]
    have hblanks : ∀ l ∈ (source.drop first).take (place - first), isBlank l = true := by
      intro l hl
      obtain ⟨i, hi, rfl⟩ := List.mem_iff_getElem.mp hl
      rw [List.length_take, List.length_drop] at hi
      apply hblank (first + i) _ (Nat.le_add_right _ _) (by omega)
      rw [List.getElem_take, List.getElem_drop, List.getElem?_eq_getElem]
    obtain ⟨htake, hdrop⟩ := takeWhile_append_of_head (c :: rest) hblanks (by simpa using hc)
    rw [← hsplit] at htake hdrop
    have hstart : first + ((source.drop first).takeWhile isBlank).length = place := by
      rw [htake, List.length_take, List.length_drop]
      omega
    rw [items_eq first hdrop, hstart]
    cases classify place c (continuation c rest) <;> rfl
  | cons token tokens ih =>
    cases htext : (source.drop first).dropWhile isBlank with
    | nil =>
      rw [items_eq_nil first htext] at htokens
      simp at htokens
    | cons c' rest' =>
      have hsplit := text_eq htext
      rw [items_eq first htext] at htokens ⊢
      cases hclass : classify (first + ((source.drop first).takeWhile isBlank).length) c'
          (continuation c' rest') with
      | error e =>
        rw [hclass] at htokens
        simp at htokens
      | ok token' =>
        rw [hclass] at htokens
        simp only [List.map_cons, List.cons_prefix_cons, Except.ok.injEq] at htokens ⊢
        obtain ⟨rfl, htokens⟩ := htokens
        have hbehind := drop_of_split hsplit
        rw [stopOf_cons] at hle hblank
        have hstop := stop_of_classify hclass
        rw [List.length_cons, ← hstop] at hbehind
        rw [← hstop, ← hbehind] at htokens ⊢
        exact ih htokens hle hblank

private theorem classify_of_isNumeral {place : Nat} {c : Char} (more : List Char)
    (hc : isNumeral c = true) :
    classify place c more = match numeral? (c :: more) with
      | some value => .ok ⟨.number value, ⟨place, place + (more.length + 1)⟩, String.ofList (c :: more)⟩
      | none => .error (.invalidNumber (String.ofList (c :: more)) ⟨place, place + (more.length + 1)⟩) :=
  if_pos hc

end Lexer

open Lexer Decimal Text

/-- Whether a token of a source begins at a place: some first tokens stand in front of it, and only blanks
behind these. -/
structure BeginsBehind (source : String) (tokens : List Token) (place : Nat) : Prop where
  first : tokens.map .ok <+: lexItems source
  le : stopOf 0 tokens ≤ place
  blank : ∀ i c, stopOf 0 tokens ≤ i → i < place → source.toList[i]? = some c → isBlank c = true

/-- Where a token begins with a digit or a point, the item is the longest run of these and the longest
exponent behind it. It is a number if the run has a digit and at most one point, with the value that is read
from its text, which is that of the number it spells correctly rounded; else it is an invalid number. -/
theorem lexItems_numeral {source : String} {tokens : List Token} {place : Nat} {c : Char}
    (hbegins : BeginsBehind source tokens place) (hplace : source.toList[place]? = some c)
    (hc : c.isDigit = true ∨ c = '.') :
    ∃ run ex, Longest IsRun (source.toList.drop place) run ∧
      Longest (fun text => ∃ power, Scales text power) (source.toList.drop (place + run.length)) ex ∧
      (Valid run → ∃ value power, Ending ex power ∧
        (lexItems source)[tokens.length]? = some (.ok ⟨.number value,
          ⟨place, place + (run ++ ex).length⟩, String.ofList (run ++ ex)⟩) ∧
        read? (run ++ ex) = some value ∧ CorrectlyRounded (number run power) value) ∧
      (¬Valid run → (lexItems source)[tokens.length]? = some (.error (.invalidNumber
        (String.ofList (run ++ ex)) ⟨place, place + (run ++ ex).length⟩))) := by
  have hnumeral : isNumeral c = true := by simpa [isNumeral] using hc
  obtain ⟨hlt, hget⟩ := List.getElem?_eq_some_iff.mp hplace
  have hrest : source.toList.drop place = c :: source.toList.drop (place + 1) := by
    rw [List.drop_eq_getElem_cons hlt, hget]
  obtain ⟨rest, hrest'⟩ : ∃ rest, source.toList.drop (place + 1) = rest := ⟨_, rfl⟩
  rw [hrest'] at hrest
  obtain ⟨more, hmore⟩ : ∃ more, rest.takeWhile isNumeral = more := ⟨_, rfl⟩
  obtain ⟨ex, hex⟩ : ∃ ex, exponentPart (rest.drop more.length) = ex := ⟨_, rfl⟩
  have hrun : Longest IsRun (source.toList.drop place) (c :: more) := by
    have hlongest := longest_takeWhile (source.toList.drop place)
    rwa [hrest, List.takeWhile_cons_of_pos hnumeral, hmore, ← hrest] at hlongest
  have hexponent : Longest (fun text => ∃ power, Scales text power)
      (source.toList.drop (place + (c :: more).length)) ex := by
    rw [← List.drop_drop, hrest, List.length_cons, List.drop_succ_cons, ← hex]
    exact longest_exponentPart _
  have hitem : (lexItems source)[tokens.length]? = some (classify place c (more ++ ex)) := by
    have hcontinuation : continuation c rest = more ++ ex := by
      simp only [continuation, hnumeral, if_true, hmore, hex]
    rw [← hcontinuation]
    exact items_behind hbegins.first hbegins.le hbegins.blank hrest (isBlank_of_isNumeral hnumeral)
  obtain ⟨power, hending⟩ : ∃ power, Ending ex power := by
    rcases hexponent.of_sort with rfl | ⟨power, hscales⟩
    · exact ⟨0, .inl ⟨rfl, rfl⟩⟩
    · exact ⟨power, .inr hscales⟩
  obtain ⟨hvalid, hinvalid⟩ := numeral?_eq (hrun.of_sort.resolve_left (List.cons_ne_nil c more)) hending
  rw [classify_of_isNumeral _ hnumeral] at hitem
  refine ⟨c :: more, ex, hrun, hexponent, ?_, ?_⟩
  · intro h
    obtain ⟨value, hnumber, hread, hcorrect⟩ := hvalid h
    rw [List.cons_append] at hnumber
    rw [hnumber] at hitem
    exact ⟨value, power, hending, hitem, hread, hcorrect⟩
  · intro h
    have hnone := hinvalid h
    rw [List.cons_append] at hnone
    rw [hnone] at hitem
    exact hitem

/-- A number of an exponent without a digit in front of its point, behind blanks. -/
theorem lexItems_numeral_behind_blanks : BeginsBehind "  .5e-1x" [] 2 ∧
    ∃ run ex, Longest IsRun ".5e-1x".toList run ∧
      Longest (fun text => ∃ power, Scales text power) ("  .5e-1x".toList.drop (2 + run.length)) ex ∧
      (Valid run → ∃ value power, Ending ex power ∧
        (lexItems "  .5e-1x")[0]? = some (.ok ⟨.number value,
          ⟨2, 2 + (run ++ ex).length⟩, String.ofList (run ++ ex)⟩) ∧
        read? (run ++ ex) = some value ∧ CorrectlyRounded (number run power) value) ∧
      (¬Valid run → (lexItems "  .5e-1x")[0]? = some (.error (.invalidNumber
        (String.ofList (run ++ ex)) ⟨2, 2 + (run ++ ex).length⟩))) := by
  have hbegins : BeginsBehind "  .5e-1x" [] 2 := by
    refine ⟨List.nil_prefix, by decide, ?_⟩
    intro i c _ hlt hc
    have hspace : c = ' ' := by
      interval_cases i <;> exact (Option.some.inj hc).symm
    rw [hspace]
    decide
  exact ⟨hbegins, lexItems_numeral hbegins rfl (.inr rfl)⟩

end EquationSolver.Formula
