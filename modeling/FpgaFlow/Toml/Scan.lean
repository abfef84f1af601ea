import FpgaFlow.Datum

/-!
# Scanning documents

A scan reads something from the front of a text and gives it with the rest of the text, or finds
that it is not there. Blanks, comments and ends of lines separate what a document says.
-/

namespace FpgaFlow.Toml

/-- Reads from the front of a text. -/
abbrev Scan (α : Type) := List Char → Option (α × List Char)

/-- The rest of a text that begins with `word`. -/
def after? (word : List Char) (s : List Char) : Option (List Char) :=
  if word.isPrefixOf s then some (s.drop word.length) else none

def isBlank (c : Char) : Bool :=
  c == ' ' || c == '\t'

/-- A text without the blanks at its beginning. -/
def skipBlanks (s : List Char) : List Char :=
  s.dropWhile isBlank

/-- The rest of a text that begins with the end of a line. -/
def newline? : List Char → Option (List Char)
  | '\n' :: rest => some rest
  | '\r' :: '\n' :: rest => some rest
  | _ => none

/-- Control characters other than the tabulator, which no line may hold. -/
def isControl (c : Char) : Bool :=
  (c.toNat < 32 && c != '\t') || c.toNat == 127

/-- A text without the comment that it begins with, if it begins with one. -/
def skipComment : List Char → List Char
  | '#' :: rest => rest.dropWhile fun c => !isControl c
  | s => s

/-- The rest of a text after what may stand at the end of a line. -/
def lineEnd? (s : List Char) : Option (List Char) :=
  match skipComment (skipBlanks s) with
  | [] => some []
  | rest => newline? rest

/-- A text without the blanks and ends of lines at its beginning. -/
def skipLines : List Char → List Char
  | '\n' :: rest => skipLines rest
  | '\r' :: '\n' :: rest => skipLines rest
  | c :: rest => if isBlank c then skipLines rest else c :: rest
  | [] => []

/-- A text without the blanks, comments and ends of lines at its beginning; `comment` says whether
it begins within a comment. -/
def skipGapFrom (comment : Bool) : List Char → List Char
  | '\n' :: rest => skipGapFrom false rest
  | '\r' :: '\n' :: rest => skipGapFrom false rest
  | c :: rest =>
    if comment then (if isControl c then c :: rest else skipGapFrom true rest)
    else if isBlank c then skipGapFrom false rest
    else if c = '#' then skipGapFrom true rest
    else c :: rest
  | [] => []

/-- A text without the blanks, comments and ends of lines at its beginning. -/
def skipGap : List Char → List Char :=
  skipGapFrom false

/-- The digits at the beginning of a text that go on from a digit. A single underscore may stand
between two digits, and it must not stand anywhere else. -/
def digitsFrom (isDigit : Char → Bool) : Scan (List Char)
  | '_' :: c :: rest =>
    if isDigit c then (digitsFrom isDigit rest).map fun (ds, rest) => (c :: ds, rest) else none
  | ['_'] => none
  | c :: rest =>
    if isDigit c then (digitsFrom isDigit rest).map fun (ds, rest) => (c :: ds, rest)
    else some ([], c :: rest)
  | [] => some ([], [])

/-- At least one digit, with single underscores between digits. -/
def digits (isDigit : Char → Bool) : Scan (List Char)
  | c :: rest =>
    if isDigit c then (digitsFrom isDigit rest).map fun (ds, rest) => (c :: ds, rest) else none
  | [] => none

/-- The value of a digit in any base up to sixteen. -/
def digitValue (c : Char) : Nat :=
  if c.isDigit then c.toNat - 48
  else if 'a' ≤ c ∧ c ≤ 'f' then c.toNat - 87
  else c.toNat - 55

/-- The number that digits write. -/
def ofDigits (base : Nat) (ds : List Char) : Nat :=
  ds.foldl (fun n c => base * n + digitValue c) 0

def isHexDigit (c : Char) : Bool :=
  c.isDigit || ('a' ≤ c && c ≤ 'f') || ('A' ≤ c && c ≤ 'F')

/-- Exactly `n` digits. -/
def digitRun (isDigit : Char → Bool) (base n : Nat) : Scan Nat := fun s =>
  let ds := s.take n
  if ds.length = n && ds.all isDigit then some (ofDigits base ds, s.drop n) else none

end FpgaFlow.Toml
