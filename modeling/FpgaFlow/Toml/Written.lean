import FpgaFlow.Schema
import FpgaFlow.Toml.Moment

/-!
# Values as they are written

Lists are written between brackets, tables between braces with their keys in ascending order. A text
stands between quotes of the first kind between which it can stand as it is, and otherwise between
double quotes with escapes (`writtenText`). A moment inside of a list or table is written plainly.
-/

namespace FpgaFlow.Toml

open Decimal

/-- A character between double quotes. -/
def escapedChar (c : Char) : String :=
  if c = '\x08' then "\\b"
  else if c = '\t' then "\\t"
  else if c = '\n' then "\\n"
  else if c = '\x0c' then "\\f"
  else if c = '\r' then "\\r"
  else if c = '"' then "\\\""
  else if c = '\\' then "\\\\"
  else if c.toNat < 32 ∨ c.toNat = 127 then
    let ds := (Nat.toDigits 16 c.toNat).map Char.toUpper
    "\\u" ++ String.ofList (List.replicate (4 - ds.length) '0' ++ ds)
  else c.toString

/-- A text between double quotes, with escapes. -/
def escaped (s : String) : String :=
  "\"" ++ String.join (s.toList.map escapedChar) ++ "\""

/-- A text between double quotes on lines of its own, with escapes. Ends of lines stay, and so do at
most two double quotes in a row; `quotes` of them stand right before the text. -/
def escapedLines (quotes : Nat) : List Char → String
  | [] => ""
  | c :: cs =>
    if c = '\n' then "\n" ++ escapedLines 0 cs
    else if c = '"' ∧ quotes < 2 then "\"" ++ escapedLines (quotes + 1) cs
    else escapedChar c ++ escapedLines 0 cs

/-- The length of the longest run of a character; a run of some length stands before the text. -/
def longestRun (c : Char) (run : Nat) : List Char → Nat
  | [] => run
  | d :: ds => if d = c then longestRun c (run + 1) ds else max run (longestRun c 0 ds)

/-- The characters that need an escape wherever they stand. -/
def needsEscape (c : Char) : Bool :=
  isControl c && c != '\n'

/-- A key between quotes. -/
def writtenLine (s : String) : String :=
  let cs := s.toList
  if !cs.any (fun c => isControl c || c == '\\' || c == '"') then escaped s
  else if !cs.any (fun c => isControl c || c == '\'') then "'" ++ s ++ "'"
  else escaped s

/-- What stands between the three quotes on either side: an end of line that does not count goes in
front of a text that has ends of lines. -/
def onLines (quote : String) (cs : List Char) (text : String) : String :=
  quote ++ (if cs.contains '\n' then "\n" else "") ++ text ++ quote

/-- A text between quotes, in the first of these forms that it can have: on one line between double
or single quotes as it is, on lines of its own between three double or single quotes, and with
escapes. -/
def writtenText (s : String) : String :=
  let cs := s.toList
  let plain := !cs.any needsEscape
  let oneLine := !cs.contains '\n'
  let noBackslash := !cs.contains '\\'
  let doubles := longestRun '"' 0 cs
  let singles := longestRun '\'' 0 cs
  if plain && oneLine && noBackslash && doubles == 0 then escaped s
  else if plain && oneLine && singles == 0 then "'" ++ s ++ "'"
  else if plain && noBackslash && doubles ≤ 2 then onLines "\"\"\"" cs (escapedLines 0 cs)
  else if plain && singles ≤ 2 then onLines "'''" cs s
  else if oneLine then escaped s
  else onLines "\"\"\"" cs (escapedLines 0 cs)

/-- A key: a bare word where possible. -/
def writtenKey (s : String) : String :=
  if s ≠ "" ∧ s.toList.all fun c => c.isAlphanum || c == '-' || c == '_' then s
  else writtenLine s

/-- A number of double precision. -/
def writtenFloat : Binary64 → String
  | .notANumber => "nan"
  | x => x.marked

/-- Parts between two brackets, or the brackets alone. -/
def enclosed (opening closing : String) : List String → String
  | [] => opening ++ closing
  | parts => opening ++ String.intercalate ", " parts ++ closing

/-- Entries in ascending order of their keys. -/
def sortEntries (parts : List (String × String)) : List (String × String) :=
  parts.mergeSort fun a b => compare a.1 b.1 != .gt

/-- A table of values that are written already. -/
def writtenTable (parts : List (String × String)) : String :=
  match parts with
  | [] => "\x7b\x7d"
  | _ => "\x7b " ++
      String.intercalate ", "
        ((sortEntries parts).map fun (key, v) => writtenKey key ++ " = " ++ v) ++
      " \x7d"

/-- The moment of a map that begins with the entry of a moment and has some entries more. -/
def momentAlone (d : Datum) (more : Nat) : Except Schema.Mismatch String :=
  match d with
  | .text s => match moment? s with
    | some m => if more = 0 then .ok m else .error (.wrongLength (more + 1) "1 element in map")
    | none => .error .noMoment
  | _ => .error .noMoment

mutual

/-- A value inside of a list or table. -/
def written : Datum → Except Schema.Mismatch String
  | .null => .ok "null"
  | .bool b => .ok (if b then "true" else "false")
  | .int i => .ok (toString i)
  | .float x => .ok (writtenFloat x)
  | .text s => .ok (writtenText s)
  | .list items => (writtenItems items).map (enclosed "[" "]")
  | .map [] => .ok "\x7b\x7d"
  | .map ((key, d) :: rest) =>
    if key = momentKey then momentAlone d rest.length
    else (writtenEntries ((key, d) :: rest)).map writtenTable

def writtenItems : List Datum → Except Schema.Mismatch (List String)
  | [] => .ok []
  | d :: ds => do return (← written d) :: (← writtenItems ds)

def writtenEntries : List (String × Datum) → Except Schema.Mismatch (List (String × String))
  | [] => .ok []
  | (key, d) :: rest => do return (key, ← written d) :: (← writtenEntries rest)

end

/-- A value that stands by itself: a text without quotes, a moment as the table that it is. -/
def writtenAlone : Datum → Except Schema.Mismatch String
  | .text s => .ok s
  | .map ((key, d) :: rest) =>
    if key = momentKey then
      (momentAlone d rest.length).map fun m => writtenTable [(key, writtenText m)]
    else written (.map ((key, d) :: rest))
  | d => written d

end FpgaFlow.Toml
