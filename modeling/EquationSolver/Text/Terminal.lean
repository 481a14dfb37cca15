/-!
# Texts for a terminal

In a text for a terminal, sequences of characters that start with the escape character change how
what follows is shown, and other control characters have no look of their own. Where the output is
no terminal, both are left out. Main statements: nothing is left out of a text without control
characters, and no control character but blanks is left in.
-/

namespace EquationSolver.Text

/-- Where one stands in a text for a terminal. -/
inductive Place
  | text
  | escape
  /-- In an escape sequence that is longer than one character. -/
  | escapeTail
  /-- In a control sequence, which changes style or position. -/
  | control
  /-- At the start of a string for the device. -/
  | device
  /-- In the numbers that lead such a string. -/
  | deviceNumbers
  /-- Behind the numbers that lead such a string. -/
  | deviceTail
  /-- In a string that only a terminator ends. -/
  | string
  /-- In a string that the bell ends too. -/
  | command
deriving DecidableEq, Repr

def isControl (c : Char) : Bool :=
  c < ' ' || c == '\x7f'

/-- Whether a control character is a blank. -/
def isLayout (c : Char) : Bool :=
  c == '\t' || c == '\n' || c == '\x0c' || c == '\r'

/-- Whether the encoding of a character has the byte that ends strings, which is no character of its
own. -/
def hasTerminator (c : Char) : Bool :=
  (String.utf8EncodeChar c).contains 0x9C

namespace Place

/-- Whether a character is shown at a place. Blanks are obeyed inside escape sequences too. -/
def shows : Place → Char → Bool
  | .text, c => !isControl c || isLayout c
  | .escape, c | .escapeTail, c | .control, c => isLayout c
  | .device, _ | .deviceNumbers, _ | .deviceTail, _ | .string, _ | .command, _ => false

/-- The place behind a visible character of the basic alphabet, at the place before it. -/
def afterVisible (c : Char) : Place → Place
  | .text => .text
  | .escape =>
      if c = '[' then .control
      else if c = ']' then .command
      else if c = 'P' then .device
      else if c = 'X' ∨ c = '^' ∨ c = '_' then .string
      else if c < '0' then .escapeTail
      else .text
  | .escapeTail => if c < '0' then .escapeTail else .text
  | .control => if c < '@' then .control else .text
  | .device => if c < '0' then .deviceTail else if c < '@' then .deviceNumbers else .string
  | .deviceNumbers => if c < '0' then .deviceTail else if c < '<' then .deviceNumbers else .string
  | .deviceTail => if c < '0' then .deviceTail else .string
  | .string => .string
  | .command => .command

/-- The place behind a character that is not shown. The escape character starts a sequence anywhere,
and two control characters break one off. -/
def next (place : Place) (c : Char) : Place :=
  if c = '\x1b' then .escape
  else if c = '\x18' ∨ c = '\x1a' then .text
  else if isControl c then if place = .command ∧ c = '\x07' then .text else place
  else if '\x7f' < c then if place = .string ∧ hasTerminator c then .text else place
  else place.afterVisible c

/-- The place behind a character that is shown. A sequence stays open across characters of the basic
alphabet. -/
def afterShown (place : Place) (c : Char) : Place :=
  if '\x7f' < c then .text else place

end Place

/-- What is shown of a text from a place on. Behind a character that is shown, all that has a look is
shown, even where a sequence is open; the next control character without a look takes it up again. -/
def shownFrom : Place → Bool → List Char → List Char
  | _, _, [] => []
  | place, showing, c :: rest =>
      if (if showing then Place.text else place).shows c then
        c :: shownFrom (place.afterShown c) true rest
      else shownFrom (place.next c) false rest

/-- A text for a terminal as it reads elsewhere. -/
def plain (text : List Char) : List Char :=
  shownFrom .text false text

theorem shownFrom_eq_self {text : List Char} (showing : Bool)
    (h : ∀ c ∈ text, isControl c = false) : shownFrom .text showing text = text := by
  induction text generalizing showing with
  | nil => rfl
  | cons c rest ih =>
    have shown : Place.text.shows c = true := by simp [Place.shows, h c (List.mem_cons_self ..)]
    have kept := ih true fun d hd => h d (List.mem_cons_of_mem _ hd)
    simp [shownFrom, Place.afterShown, shown, kept]

theorem plain_eq_self {text : List Char} (h : ∀ c ∈ text, isControl c = false) :
    plain text = text :=
  shownFrom_eq_self false h

theorem Place.text_shows {place : Place} {c : Char} (h : place.shows c = true) :
    Place.text.shows c = true := by
  cases place <;> simp_all [Place.shows]

theorem text_shows_of_mem_shownFrom {place : Place} {showing : Bool} {text : List Char} {c : Char}
    (h : c ∈ shownFrom place showing text) : Place.text.shows c = true := by
  fun_induction shownFrom place showing text with
  | case1 => simp at h
  | case2 place showing d rest shown ih =>
    rcases List.mem_cons.mp h with rfl | h
    · exact Place.text_shows shown
    · exact ih h
  | case3 place showing d rest hidden ih => exact ih h

theorem isLayout_of_mem_plain {text : List Char} {c : Char} (h : c ∈ plain text)
    (control : isControl c = true) : isLayout c = true := by
  simpa [Place.shows, control] using text_shows_of_mem_shownFrom h

def bold (text : String) : String :=
  "\x1b[1m" ++ text ++ "\x1b[0m"

example : plain "a\x1b[31mred\x1b[0m\x7f, \x1b]0;title\x07b".toList = "ared, b".toList := by
  decide +kernel

example : plain "a\x1b\tb\x01[31mc".toList = "a\tbc".toList := by decide +kernel

end EquationSolver.Text
