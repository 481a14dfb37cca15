import EquationSolver.Decimal.Layout

/-!
# JSON documents

Documents as values, and their two texts: on one line, and with one member a line.
-/

namespace EquationSolver.Report

/-- A JSON document. Members of an object keep their order. -/
inductive Json
  | null
  | count (n : Nat)
  | number (x : Float)
  | text (s : String)
  | array (items : List Json)
  | object (members : List (String × Json))

namespace Json

/-- Numbers carry a point or an exponent, and a sign in every exponent; a tie between two shortest
decimals goes to the even one. -/
def numberStyle : Decimal.Style := ⟨.between (-5) 15, ".0", true, .toEven⟩

/-- A number; what is not finite has no JSON and is written as `null`. -/
def numberText (x : Float) : String :=
  if x.isFinite then numberStyle.text x else "null"

/-- A character of a text. Quotes, backslashes and control characters are escaped. -/
def charText (c : Char) : List Char :=
  if c = '"' then ['\\', '"']
  else if c = '\\' then ['\\', '\\']
  else if c = '\x08' then ['\\', 'b']
  else if c = '\t' then ['\\', 't']
  else if c = '\n' then ['\\', 'n']
  else if c = '\x0c' then ['\\', 'f']
  else if c = '\r' then ['\\', 'r']
  else if c.toNat < 0x20 then '\\' :: 'u' :: (Nat.toDigits 16 c.toNat).leftpad 4 '0'
  else [c]

def quote (s : String) : String :=
  String.ofList ('"' :: (s.toList.flatMap charText ++ ['"']))

mutual

/-- A document on one line, without blanks. -/
def compact : Json → String
  | null => "null"
  | count n => toString n
  | number x => numberText x
  | text s => quote s
  | array items => "[" ++ compactItems items ++ "]"
  | object members => "\x7b" ++ compactMembers members ++ "\x7d"

def compactItems : List Json → String
  | [] => ""
  | [item] => item.compact
  | item :: items => item.compact ++ "," ++ compactItems items

def compactMembers : List (String × Json) → String
  | [] => ""
  | [(name, value)] => quote name ++ ":" ++ value.compact
  | (name, value) :: members => quote name ++ ":" ++ value.compact ++ "," ++ compactMembers members

end

/-- The start of a line at a depth: two blanks for each level. -/
def newline (depth : Nat) : String :=
  "\n" ++ String.ofList (List.replicate (2 * depth) ' ')

mutual

/-- A document with every item and every member on a line of its own, at a depth. -/
def prettyAt (depth : Nat) : Json → String
  | null => "null"
  | count n => toString n
  | number x => numberText x
  | text s => quote s
  | array [] => "[]"
  | array (item :: items) =>
      "[" ++ newline (depth + 1) ++ item.prettyAt (depth + 1) ++ prettyItems (depth + 1) items ++
        newline depth ++ "]"
  | object [] => "\x7b\x7d"
  | object ((name, value) :: members) =>
      "\x7b" ++ newline (depth + 1) ++ quote name ++ ": " ++ value.prettyAt (depth + 1) ++
        prettyMembers (depth + 1) members ++ newline depth ++ "\x7d"

def prettyItems (depth : Nat) : List Json → String
  | [] => ""
  | item :: items => "," ++ newline depth ++ item.prettyAt depth ++ prettyItems depth items

def prettyMembers (depth : Nat) : List (String × Json) → String
  | [] => ""
  | (name, value) :: members =>
      "," ++ newline depth ++ quote name ++ ": " ++ value.prettyAt depth ++ prettyMembers depth members

end

/-- A document with every item and every member on a line of its own. -/
def pretty (document : Json) : String :=
  document.prettyAt 0

end Json

end EquationSolver.Report
