import FpgaFlow.Datum

/-!
# Reports in JSON

Data is written with one member or item per line and two more blanks in front of each level. An
empty list or map stays on its line. In texts, quotes, backslashes and control characters are
escaped; every other character stands for itself.
-/

namespace FpgaFlow.Json

/-- Four digits in base sixteen. -/
def hex4 (n : Nat) : String :=
  let ds := Nat.toDigits 16 n
  String.ofList (List.replicate (4 - ds.length) '0' ++ ds)

/-- A character of a text in quotes. -/
def escape (c : Char) : String :=
  if c = '"' then "\\\""
  else if c = '\\' then "\\\\"
  else if c = '\n' then "\\n"
  else if c = '\r' then "\\r"
  else if c = '\t' then "\\t"
  else if c.toNat = 8 then "\\b"
  else if c.toNat = 12 then "\\f"
  else if c.toNat < 32 then "\\u" ++ hex4 c.toNat
  else c.toString

/-- A text in quotes. -/
def quote (s : String) : String :=
  "\"" ++ String.join (s.toList.map escape) ++ "\""

/-- The beginning of a line at some depth. -/
def newline (depth : Nat) : String :=
  "\n" ++ String.ofList (List.replicate (2 * depth) ' ')

/-- Items on lines of their own, between two brackets. -/
def enclose (opening closing : String) (depth : Nat) : List String → String
  | [] => opening ++ closing
  | items => opening ++ newline (depth + 1) ++
      String.intercalate ("," ++ newline (depth + 1)) items ++ newline depth ++ closing

mutual

/-- A value at some depth. -/
def write (depth : Nat) : Datum → String
  | .null => "null"
  | .bool b => if b then "true" else "false"
  | .int i => toString i
  | .float x => x.marked
  | .text s => quote s
  | .list items => enclose "[" "]" depth (writeItems (depth + 1) items)
  | .map entries => enclose "\x7b" "\x7d" depth (writeEntries (depth + 1) entries)

/-- The items of a list at some depth. -/
def writeItems (depth : Nat) : List Datum → List String
  | [] => []
  | d :: ds => write depth d :: writeItems depth ds

/-- The members of a map at some depth. -/
def writeEntries (depth : Nat) : List (String × Datum) → List String
  | [] => []
  | (name, d) :: rest => (quote name ++ ": " ++ write depth d) :: writeEntries depth rest

end

/-- The text of a value. -/
def render (d : Datum) : String :=
  write 0 d

end FpgaFlow.Json
