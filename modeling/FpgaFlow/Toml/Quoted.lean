import FpgaFlow.Toml.Scan

/-!
# Texts and keys of documents

A text stands between double quotes, with escapes, or between single quotes, word for word. Three
quotes begin a text of several lines, whose first end of line does not count; one or two quotes may
stand anywhere in it, also right before the three that end it.

A key is a list of parts with points between them. A part is a text on one line or a bare word of
letters and digits of ASCII, `-` and `_`.
-/

namespace FpgaFlow.Toml

/-- The character with a number, if there is one. -/
def charOf? (n : Nat) : Option Char :=
  if n.isValidChar then some (Char.ofNat n) else none

/-- The character that an escape stands for, after its backslash. -/
def escape? : Scan Char
  | 'b' :: rest => some ('\x08', rest)
  | 't' :: rest => some ('\t', rest)
  | 'n' :: rest => some ('\n', rest)
  | 'f' :: rest => some ('\x0c', rest)
  | 'r' :: rest => some ('\r', rest)
  | '"' :: rest => some ('"', rest)
  | '\\' :: rest => some ('\\', rest)
  | 'u' :: rest => do
    let (n, rest) ← digitRun isHexDigit 16 4 rest
    return (← charOf? n, rest)
  | 'U' :: rest => do
    let (n, rest) ← digitRun isHexDigit 16 8 rest
    return (← charOf? n, rest)
  | _ => none

/-- What follows a backslash at the end of a line: the rest after all blanks and ends of lines. -/
def lineJoin? (s : List Char) : Option (List Char) :=
  (newline? (skipBlanks s)).map skipLines

/-- The rest of a text between double quotes. Each step reads at least one character. -/
def basicFrom : Nat → Scan (List Char)
  | 0, _ => none
  | _ + 1, [] => none
  | _ + 1, '"' :: rest => some ([], rest)
  | n + 1, '\\' :: rest => do
    let (c, rest) ← escape? rest
    let (cs, rest) ← basicFrom n rest
    return (c :: cs, rest)
  | n + 1, c :: rest =>
    if isControl c then none
    else (basicFrom n rest).map fun (cs, rest) => (c :: cs, rest)

/-- A text between double quotes, after the first one. -/
def basic : Scan (List Char) := fun s => basicFrom (s.length + 1) s

/-- A text between single quotes, after the first one. -/
def literal : Scan (List Char)
  | [] => none
  | '\'' :: rest => some ([], rest)
  | c :: rest =>
    if isControl c then none else (literal rest).map fun (cs, rest) => (c :: cs, rest)

/-- What a run of quotes in a text of several lines means: quotes of the text, or its end, which
two more quotes of the text may precede. -/
def quotesEnd? (count : Nat) : Option Nat :=
  if count < 3 then none else some (min (count - 3) 2)

/-- The rest of a text of several lines between double quotes. -/
def basicLinesFrom : Nat → Scan (List Char)
  | 0, _ => none
  | _ + 1, [] => none
  | n + 1, '\\' :: rest => match lineJoin? rest with
    | some rest => basicLinesFrom n rest
    | none => do
      let (c, rest) ← escape? rest
      let (cs, rest) ← basicLinesFrom n rest
      return (c :: cs, rest)
  | n + 1, '"' :: rest =>
    let more := rest.takeWhile (· == '"')
    match quotesEnd? (more.length + 1) with
    | some kept => some (List.replicate kept '"', rest.drop (kept + 2))
    | none => (basicLinesFrom n (rest.drop more.length)).map fun (cs, rest) =>
        ('"' :: more ++ cs, rest)
  | n + 1, c :: rest => match newline? (c :: rest) with
    | some rest => (basicLinesFrom n rest).map fun (cs, rest) => ('\n' :: cs, rest)
    | none =>
      if isControl c then none
      else (basicLinesFrom n rest).map fun (cs, rest) => (c :: cs, rest)

/-- The rest of a text of several lines between single quotes. -/
def literalLinesFrom : Nat → Scan (List Char)
  | 0, _ => none
  | _ + 1, [] => none
  | n + 1, '\'' :: rest =>
    let more := rest.takeWhile (· == '\'')
    match quotesEnd? (more.length + 1) with
    | some kept => some (List.replicate kept '\'', rest.drop (kept + 2))
    | none => (literalLinesFrom n (rest.drop more.length)).map fun (cs, rest) =>
        ('\'' :: more ++ cs, rest)
  | n + 1, c :: rest => match newline? (c :: rest) with
    | some rest => (literalLinesFrom n rest).map fun (cs, rest) => ('\n' :: cs, rest)
    | none =>
      if isControl c then none
      else (literalLinesFrom n rest).map fun (cs, rest) => (c :: cs, rest)

/-- A text without the end of line at its beginning, if there is one. -/
def skipNewline (s : List Char) : List Char :=
  (newline? s).getD s

/-- A text on one line, with its quotes. -/
def quotedLine : Scan String
  | '"' :: rest => (basic rest).map fun (cs, rest) => (String.ofList cs, rest)
  | '\'' :: rest => (literal rest).map fun (cs, rest) => (String.ofList cs, rest)
  | _ => none

/-- A text with its quotes. -/
def quoted : Scan String := fun s =>
  match s with
  | '"' :: '"' :: '"' :: rest =>
    (basicLinesFrom (rest.length + 1) (skipNewline rest)).map fun (cs, rest) =>
      (String.ofList cs, rest)
  | '\'' :: '\'' :: '\'' :: rest =>
    (literalLinesFrom (rest.length + 1) (skipNewline rest)).map fun (cs, rest) =>
      (String.ofList cs, rest)
  | _ => quotedLine s

/-- The characters of bare parts of keys. -/
def isBare (c : Char) : Bool :=
  c.isAlphanum || c == '-' || c == '_'

/-- One part of a key. -/
def keyPart : Scan String := fun s =>
  match s.span isBare with
  | ([], _) => quotedLine s
  | (cs, rest) => some (String.ofList cs, rest)

/-- The parts of a key, with blanks around each of them. -/
def keyParts : Nat → Scan (List String)
  | 0, _ => none
  | n + 1, s => do
    let (part, rest) ← keyPart (skipBlanks s)
    match skipBlanks rest with
    | '.' :: rest =>
      let (parts, rest) ← keyParts n rest
      return (part :: parts, rest)
    | rest => return ([part], rest)

/-- How deep values and keys may be nested. -/
def maxDepth : Nat := 79

/-- A key. -/
def key : Scan (List String) :=
  keyParts maxDepth

end FpgaFlow.Toml
