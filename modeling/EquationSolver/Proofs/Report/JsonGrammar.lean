import Mathlib.Data.List.Basic

/-!
# The grammar of JSON

The texts that are JSON, by the rules of its grammar: values, with blanks around them and around the
marks between them. A text is a list of characters here.
-/

namespace EquationSolver.Report.JsonGrammar

def IsBlanks (text : List Char) : Prop :=
  ∀ c ∈ text, c ∈ [' ', '\t', '\n', '\r']

def AllDigits (text : List Char) : Prop :=
  ∀ c ∈ text, c.isDigit = true

/-- Digits in front of a point. Only a zero alone begins with a zero. -/
inductive IsWhole : List Char → Prop
  | zero : IsWhole ['0']
  | digits {c more} (first : c.isDigit = true) (nonzero : c ≠ '0') (rest : AllDigits more) :
      IsWhole (c :: more)

inductive IsFraction : List Char → Prop
  | none : IsFraction []
  | digits {c more} (all : AllDigits (c :: more)) : IsFraction ('.' :: c :: more)

inductive IsExponent : List Char → Prop
  | none : IsExponent []
  | digits {mark sign c more} (marked : mark = 'e' ∨ mark = 'E')
      (signed : sign = [] ∨ sign = ['+'] ∨ sign = ['-']) (all : AllDigits (c :: more)) :
      IsExponent (mark :: (sign ++ c :: more))

inductive IsMagnitude : List Char → Prop
  | parts {whole fraction exponent} (hwhole : IsWhole whole) (hfraction : IsFraction fraction)
      (hexponent : IsExponent exponent) : IsMagnitude (whole ++ (fraction ++ exponent))

inductive IsNumber : List Char → Prop
  | positive {text} (magnitude : IsMagnitude text) : IsNumber text
  | negative {text} (magnitude : IsMagnitude text) : IsNumber ('-' :: text)

def IsHexDigit (c : Char) : Prop :=
  c.isDigit = true ∨ ('a' ≤ c ∧ c ≤ 'f') ∨ ('A' ≤ c ∧ c ≤ 'F')

instance : DecidablePred IsHexDigit :=
  fun _ => instDecidableOr

/-- A character between quotes, or an escape that stands for one. -/
inductive IsCharacter : List Char → Prop
  | plain {c} (printable : 0x20 ≤ c.toNat) (quote : c ≠ '"') (escape : c ≠ '\\') : IsCharacter [c]
  | short {c} (known : c ∈ ['"', '\\', '/', 'b', 'f', 'n', 'r', 't']) : IsCharacter ['\\', c]
  | code {digits} (four : digits.length = 4) (hex : ∀ c ∈ digits, IsHexDigit c) :
      IsCharacter ('\\' :: 'u' :: digits)

inductive IsCharacters : List Char → Prop
  | nil : IsCharacters []
  | cons {first more} (head : IsCharacter first) (tail : IsCharacters more) :
      IsCharacters (first ++ more)

inductive IsText : List Char → Prop
  | quoted {characters} (inner : IsCharacters characters) : IsText ('"' :: (characters ++ ['"']))

def literals : List (List Char) :=
  [['n', 'u', 'l', 'l'], ['t', 'r', 'u', 'e'], ['f', 'a', 'l', 's', 'e']]

mutual

inductive IsValue : List Char → Prop
  | literal {text} (known : text ∈ literals) : IsValue text
  | number {text} (numeral : IsNumber text) : IsValue text
  | text {text} (quoted : IsText text) : IsValue text
  | emptyArray {blanks} (inner : IsBlanks blanks) : IsValue ('[' :: (blanks ++ [']']))
  | array {items} (inner : IsItems items) : IsValue ('[' :: (items ++ [']']))
  | emptyObject {blanks} (inner : IsBlanks blanks) : IsValue ('\x7b' :: (blanks ++ ['\x7d']))
  | object {members} (inner : IsMembers members) : IsValue ('\x7b' :: (members ++ ['\x7d']))

inductive IsPadded : List Char → Prop
  | value {before value after} (hbefore : IsBlanks before) (hvalue : IsValue value)
      (hafter : IsBlanks after) : IsPadded (before ++ (value ++ after))

inductive IsItems : List Char → Prop
  | last {item} (only : IsPadded item) : IsItems item
  | cons {item items} (head : IsPadded item) (tail : IsItems items) : IsItems (item ++ ',' :: items)

inductive IsMember : List Char → Prop
  | named {before name after value} (hbefore : IsBlanks before) (hname : IsText name)
      (hafter : IsBlanks after) (hvalue : IsPadded value) :
      IsMember (before ++ (name ++ (after ++ ':' :: value)))

inductive IsMembers : List Char → Prop
  | last {member} (only : IsMember member) : IsMembers member
  | cons {member members} (head : IsMember member) (tail : IsMembers members) :
      IsMembers (member ++ ',' :: members)

end

/-- One JSON document: a value, with blanks around it. -/
abbrev IsDocument : List Char → Prop :=
  IsPadded

theorem isBlanks_nil : IsBlanks [] :=
  fun _ hc => absurd hc List.not_mem_nil

private theorem IsBlanks.append {before after : List Char} (h : IsBlanks before) (h' : IsBlanks after) :
    IsBlanks (before ++ after) :=
  List.forall_mem_append.mpr ⟨h, h'⟩

theorem IsValue.padded {text : List Char} (h : IsValue text) : IsPadded text := by
  simpa using IsPadded.value isBlanks_nil h isBlanks_nil

theorem IsPadded.append {text after : List Char} (h : IsPadded text) (hafter : IsBlanks after) :
    IsPadded (text ++ after) := by
  cases h with
  | value hbefore hvalue hbetween =>
    rw [List.append_assoc, List.append_assoc]
    exact .value hbefore hvalue (hbetween.append hafter)

theorem IsMember.append {text after : List Char} (h : IsMember text) (hafter : IsBlanks after) :
    IsMember (text ++ after) := by
  cases h with
  | named hbefore hname hbetween hvalue =>
    simp only [List.append_assoc, List.cons_append]
    exact .named hbefore hname hbetween (hvalue.append hafter)

section First

def BeginsValue (c : Char) : Prop :=
  c ∈ ['n', 't', 'f', '-', '"', '[', '\x7b'] ∨ c.isDigit = true

private theorem IsNumber.begins {text : List Char} (h : IsNumber text) :
    ∃ c more, text = c :: more ∧ BeginsValue c := by
  cases h with
  | positive magnitude =>
    obtain ⟨hwhole, _, _⟩ := magnitude
    cases hwhole with
    | zero => exact ⟨_, _, rfl, .inr rfl⟩
    | digits first => exact ⟨_, _, rfl, .inr first⟩
  | negative => exact ⟨_, _, rfl, .inl (by simp)⟩

private theorem IsValue.begins {text : List Char} (h : IsValue text) :
    ∃ c more, text = c :: more ∧ BeginsValue c := by
  cases h with
  | literal known =>
    simp only [literals, List.mem_cons, List.not_mem_nil, or_false] at known
    rcases known with rfl | rfl | rfl <;> exact ⟨_, _, rfl, .inl (by simp)⟩
  | number numeral => exact numeral.begins
  | text quoted =>
    cases quoted
    exact ⟨_, _, rfl, .inl (by simp)⟩
  | emptyArray | array | emptyObject | object =>
    exact ⟨_, _, rfl, .inl (by simp)⟩

theorem IsDocument.begins {text : List Char} (h : IsDocument text) :
    ∃ c more, text = c :: more ∧ (c ∈ [' ', '\t', '\n', '\r'] ∨ BeginsValue c) := by
  cases h with
  | @value before _ _ hbefore hvalue _ =>
    obtain ⟨c, more, rfl, hc⟩ := hvalue.begins
    cases before with
    | nil => exact ⟨_, _, rfl, .inr hc⟩
    | cons blank before => exact ⟨_, _, rfl, .inl (hbefore blank List.mem_cons_self)⟩

end First

end EquationSolver.Report.JsonGrammar
