import EquationSolver.Proofs.Decimal.ReadBack
import EquationSolver.Proofs.Report.JsonGrammar
import EquationSolver.Report.Json

/-!
# The texts of documents

Both texts of a document are JSON, whatever numbers and strings it holds. A number that is finite is
written by the grammar of numbers, without zeros in front; any other is written as `null`. A string
keeps quotes, backslashes and control characters out of its text by escapes.
-/

namespace EquationSolver.Report

open JsonGrammar Decimal

section Numbers

private theorem allDigits_append {digits more : List Char} :
    AllDigits (digits ++ more) ↔ AllDigits digits ∧ AllDigits more :=
  List.forall_mem_append

private theorem allDigits_zeros (k : Nat) : AllDigits (List.replicate k '0') := by
  intro c hc
  rw [List.eq_of_mem_replicate hc]
  rfl

private theorem allDigits_toDigits (n : Nat) : AllDigits (Nat.toDigits 10 n) :=
  fun _ hc => Nat.isDigit_of_mem_toDigits (by decide) (by decide) hc

private theorem isWhole_toDigits (n : Nat) : IsWhole (Nat.toDigits 10 n) := by
  rcases Nat.eq_zero_or_pos n with rfl | hpos
  · exact .zero
  · obtain ⟨c, more, hcons, hc⟩ := exists_toDigits_eq_cons n hpos
    have hall := allDigits_toDigits n
    rw [hcons] at hall ⊢
    exact .digits (hall c List.mem_cons_self) hc fun d hd => hall d (List.mem_cons_of_mem c hd)

/-- Digits without a zero in front, as the shortest decimals have them. -/
structure Leads (digits : List Char) : Prop where
  all : AllDigits digits
  first : ∃ c more, digits = c :: more ∧ c ≠ '0'

private theorem Leads.isWhole {digits : List Char} (h : Leads digits) : IsWhole digits := by
  obtain ⟨hall, c, more, rfl, hc⟩ := h
  exact .digits (hall c List.mem_cons_self) hc fun d hd => hall d (List.mem_cons_of_mem c hd)

private theorem Leads.append {digits more : List Char} (h : Leads digits) (hmore : AllDigits more) :
    Leads (digits ++ more) := by
  obtain ⟨hall, c, rest, rfl, hc⟩ := h
  exact ⟨allDigits_append.mpr ⟨hall, hmore⟩, c, rest ++ more, rfl, hc⟩

private theorem Leads.take {digits : List Char} (h : Leads digits) (n : Nat) :
    Leads (digits.take (n + 1)) := by
  obtain ⟨hall, c, rest, rfl, hc⟩ := h
  exact ⟨fun d hd => hall d (List.mem_of_mem_take hd), c, rest.take n, rfl, hc⟩

private theorem isFraction_cons {digits : List Char} (hall : AllDigits digits) (hne : digits ≠ []) :
    IsFraction ('.' :: digits) := by
  obtain ⟨c, more, rfl⟩ := List.exists_cons_of_ne_nil hne
  exact .digits hall

private theorem isMagnitude_positionalText {digits : List Char} (h : Leads digits) (lead : Int) :
    IsMagnitude (positionalText digits lead ".0") := by
  have hne : digits ≠ [] := by
    obtain ⟨_, c, more, rfl, _⟩ := h
    exact List.cons_ne_nil c more
  unfold positionalText
  split
  · have hfraction := isFraction_cons
      (allDigits_append.mpr ⟨allDigits_zeros (-lead - 1).toNat, h.all⟩) (by simp [hne])
    simpa using IsMagnitude.parts .zero hfraction .none
  · dsimp only
    split
    · have hwhole := (h.append (allDigits_zeros (lead.toNat + 1 - digits.length))).isWhole
      have hfraction : IsFraction ['.', '0'] := .digits (allDigits_zeros 1)
      simpa using IsMagnitude.parts hwhole hfraction .none
    · next hlong =>
      have hdrop : digits.drop (lead.toNat + 1) ≠ [] := by simpa using hlong
      have hfraction := isFraction_cons (fun c hc => h.all c (List.mem_of_mem_drop hc)) hdrop
      simpa using IsMagnitude.parts (h.take lead.toNat).isWhole hfraction .none

private theorem isMagnitude_exponentText {digits : List Char} (h : Leads digits) (lead : Int)
    (plus : Bool) :
    IsMagnitude (exponentText digits lead plus) := by
  have hwhole := (h.take 0).isWhole
  have hfraction : IsFraction (if (digits.drop 1).isEmpty then [] else '.' :: digits.drop 1) := by
    split
    · exact .none
    · next hne =>
      exact isFraction_cons (fun c hc => h.all c (List.mem_of_mem_drop hc)) (by simpa using hne)
  have hexponent : IsExponent ('e' ::
      ((if lead < 0 then ['-'] else if plus then ['+'] else []) ++ Nat.toDigits 10 lead.natAbs)) := by
    obtain ⟨c, more, hcons⟩ := List.exists_cons_of_ne_nil
      (List.length_pos_iff.mp (Nat.length_toDigits_pos (b := 10) (n := lead.natAbs)))
    have hall := allDigits_toDigits lead.natAbs
    rw [hcons] at hall ⊢
    refine .digits (.inl rfl) ?_ hall
    split
    · exact .inr (.inr rfl)
    · split
      · exact .inr (.inl rfl)
      · exact .inl rfl
  simpa [exponentText] using IsMagnitude.parts hwhole hfraction hexponent

private theorem leads_significantDigits {d : Decimal} (hd : 0 < d.digits) : Leads d.significantDigits :=
  ⟨isDigit_of_mem_significantDigits, exists_significantDigits_eq_cons hd⟩

private theorem isMagnitude_magnitudeText {x : Float} {negative : Bool} {M : Nat} {E : Int}
    (hparts : Parts.ofFloat x = .finite negative M E) :
    IsMagnitude (Json.numberStyle.magnitudeText M E) := by
  rcases Nat.eq_zero_or_pos M with rfl | hM
  · have hzero : Json.numberStyle.magnitudeText 0 E = ['0'] ++ (['.', '0'] ++ []) := by
      simp [Style.magnitudeText, Json.numberStyle, Positional.covers, positionalText]
    rw [hzero]
    exact .parts .zero (.digits (allDigits_zeros 1)) .none
  · have hc := canonical_of_ofFloat hparts hM
    have hdigits := ((roundsTo_shortest hc Json.numberStyle.tie).magnitude hc).1
    have hleads := leads_significantDigits hdigits
    simp only [Style.magnitudeText, hM.ne', if_false]
    split
    · exact isMagnitude_positionalText hleads _
    · exact isMagnitude_exponentText hleads _ _

private theorem isValue_numberText (x : Float) : IsValue (Json.numberText x).toList := by
  unfold Json.numberText
  split
  · next hfinite =>
    obtain ⟨M, E, hparts⟩ := exists_parts hfinite
    have hmagnitude := isMagnitude_magnitudeText hparts
    simp only [Style.text, signedText, hparts, String.toList_ofList]
    split
    · exact .number (.negative hmagnitude)
    · exact .number (.positive hmagnitude)
  · exact .literal (by simp [literals])

private theorem isValue_count (n : Nat) : IsValue (toString n).toList := by
  simpa using IsValue.number (.positive (.parts (isWhole_toDigits n) .none .none))

end Numbers

section Texts

private theorem isCharacter_code {n : Nat} (h : n < 0x20) :
    IsCharacter ('\\' :: 'u' :: (Nat.toDigits 16 n).leftpad 4 '0') := by
  have hcodes : ∀ n < 0x20, ((Nat.toDigits 16 n).leftpad 4 '0').length = 4 ∧
      ((Nat.toDigits 16 n).leftpad 4 '0').all (IsHexDigit ·) = true := by decide +kernel
  obtain ⟨hfour, hhex⟩ := hcodes n h
  exact .code hfour fun d hd => of_decide_eq_true (List.all_eq_true.mp hhex d hd)

private theorem isCharacter_charText (c : Char) : IsCharacter (Json.charText c) := by
  unfold Json.charText
  split_ifs with hquote hescape _ _ _ _ _ hcontrol
  iterate 7 exact .short (by simp)
  · exact isCharacter_code hcontrol
  · exact .plain (by omega) hquote hescape

private theorem isCharacters_flatMap (text : List Char) : IsCharacters (text.flatMap Json.charText) := by
  induction text with
  | nil => exact .nil
  | cons c rest ih => exact .cons (isCharacter_charText c) ih

private theorem isText_quote (s : String) : IsText (Json.quote s).toList := by
  simpa [Json.quote] using IsText.quoted (isCharacters_flatMap s.toList)

end Texts

section OneLine

mutual

theorem isValue_compact : (document : Json) → IsValue document.compact.toList
  | .null => .literal (by simp [Json.compact, literals])
  | .count n => isValue_count n
  | .number x => isValue_numberText x
  | .text s => .text (isText_quote s)
  | .array [] => by simpa [Json.compact, Json.compactItems] using IsValue.emptyArray isBlanks_nil
  | .array (item :: items) => by
    simpa [Json.compact] using
      IsValue.array (isItems_compactItems (item :: items) (List.cons_ne_nil item items))
  | .object [] => by
    simpa [Json.compact, Json.compactMembers] using IsValue.emptyObject isBlanks_nil
  | .object (member :: members) => by
    simpa [Json.compact] using
      IsValue.object (isMembers_compactMembers (member :: members) (List.cons_ne_nil member members))

private theorem isItems_compactItems : (items : List Json) → items ≠ [] →
    IsItems (Json.compactItems items).toList
  | [], hne => absurd rfl hne
  | [item], _ => by simpa [Json.compactItems] using IsItems.last (isValue_compact item).padded
  | item :: next :: items, _ => by
    have htail := isItems_compactItems (next :: items) (List.cons_ne_nil next items)
    simpa [Json.compactItems] using IsItems.cons (isValue_compact item).padded htail

private theorem isMembers_compactMembers : (members : List (String × Json)) → members ≠ [] →
    IsMembers (Json.compactMembers members).toList
  | [], hne => absurd rfl hne
  | [(name, value)], _ => by
    have hmember := IsMember.named isBlanks_nil (isText_quote name) isBlanks_nil
      (isValue_compact value).padded
    simpa [Json.compactMembers] using IsMembers.last hmember
  | (name, value) :: next :: members, _ => by
    have hmember := IsMember.named isBlanks_nil (isText_quote name) isBlanks_nil
      (isValue_compact value).padded
    have htail := isMembers_compactMembers (next :: members) (List.cons_ne_nil next members)
    simpa [Json.compactMembers] using IsMembers.cons hmember htail

end

end OneLine

section Lines

private theorem isBlanks_newline (depth : Nat) : IsBlanks (Json.newline depth).toList := by
  intro c hc
  simp only [Json.newline, String.toList_append, String.toList_ofList, List.mem_append] at hc
  rcases hc with hc | hc
  · have hline : c = '\n' := by simpa using hc
    simp [hline]
  · simp [List.eq_of_mem_replicate hc]

private theorem isPadded_line {text : List Char} (h : IsValue text) (depth : Nat) :
    IsPadded ((Json.newline depth).toList ++ text) := by
  simpa using IsPadded.value (isBlanks_newline depth) h isBlanks_nil

private theorem isMember_line (name : String) {text : List Char} (h : IsValue text) (depth : Nat) :
    IsMember ((Json.newline depth).toList ++ ((Json.quote name).toList ++ ':' :: ' ' :: text)) := by
  have hblank : IsBlanks [' '] := by simp [IsBlanks]
  simpa using IsMember.named (isBlanks_newline depth) (isText_quote name) isBlanks_nil
    (.value hblank h isBlanks_nil)

mutual

/-- The text of a document with a line for every item and every member. -/
theorem isValue_prettyAt (depth : Nat) : (document : Json) → IsValue (document.prettyAt depth).toList
  | .null => .literal (by simp [Json.prettyAt, literals])
  | .count n => isValue_count n
  | .number x => isValue_numberText x
  | .text s => .text (isText_quote s)
  | .array [] => by simpa [Json.prettyAt] using IsValue.emptyArray isBlanks_nil
  | .array (item :: items) => by
    have hfirst := isPadded_line (isValue_prettyAt (depth + 1) item) (depth + 1)
    have hitems := isItems_prettyItems (depth + 1) items hfirst (isBlanks_newline depth)
    simpa [Json.prettyAt] using IsValue.array hitems
  | .object [] => by simpa [Json.prettyAt] using IsValue.emptyObject isBlanks_nil
  | .object ((name, value) :: members) => by
    have hfirst := isMember_line name (isValue_prettyAt (depth + 1) value) (depth + 1)
    have hmembers := isMembers_prettyMembers (depth + 1) members hfirst (isBlanks_newline depth)
    simpa [Json.prettyAt] using IsValue.object hmembers

private theorem isItems_prettyItems (depth : Nat) : (items : List Json) → {first after : List Char} →
    IsPadded first → IsBlanks after →
    IsItems (first ++ ((Json.prettyItems depth items).toList ++ after))
  | [], _, _, hfirst, hafter => by
    simpa [Json.prettyItems] using IsItems.last (hfirst.append hafter)
  | item :: items, _, _, hfirst, hafter => by
    have hnext := isPadded_line (isValue_prettyAt depth item) depth
    simpa [Json.prettyItems] using
      IsItems.cons hfirst (isItems_prettyItems depth items hnext hafter)

private theorem isMembers_prettyMembers (depth : Nat) : (members : List (String × Json)) →
    {first after : List Char} → IsMember first → IsBlanks after →
    IsMembers (first ++ ((Json.prettyMembers depth members).toList ++ after))
  | [], _, _, hfirst, hafter => by
    simpa [Json.prettyMembers] using IsMembers.last (hfirst.append hafter)
  | (name, value) :: members, _, _, hfirst, hafter => by
    have hnext := isMember_line name (isValue_prettyAt depth value) depth
    simpa [Json.prettyMembers] using
      IsMembers.cons hfirst (isMembers_prettyMembers depth members hnext hafter)

end

theorem isValue_pretty (document : Json) : IsValue document.pretty.toList :=
  isValue_prettyAt 0 document

end Lines

end EquationSolver.Report
