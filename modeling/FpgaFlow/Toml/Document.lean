import FpgaFlow.Toml.Value

/-!
# Documents

A document is a table: assignments, one per line, and then sections, each with a header on a line of
its own and the assignments that follow it. Empty lines and comments may stand anywhere between. A
mark of the byte order at the beginning does not count.

`Toml.parse` gives the table of a document, with its entries in the order in which they were
written, or nothing when the text is no document.
-/

namespace FpgaFlow.Toml

/-- A line of a document. -/
inductive Line where
  | header (parts : List String)
  | repeatedHeader (parts : List String)
  | assignment (a : Assignment)

/-- A line that is not empty, with its end. -/
def line : Scan Line
  | '[' :: '[' :: rest => do
    let (parts, rest) ← key rest
    let rest ← after? [']', ']'] rest
    return (.repeatedHeader parts, ← lineEnd? rest)
  | '[' :: rest => do
    let (parts, rest) ← key rest
    let rest ← after? [']'] rest
    return (.header parts, ← lineEnd? rest)
  | s => do
    let (a, rest) ← assignment value s
    return (.assignment a, ← lineEnd? rest)

/-- The lines of a document that are not empty. Each step reads at least one character. -/
def lines : Nat → List Char → Option (List Line)
  | 0, _ => none
  | n + 1, s => match skipGap s with
    | [] => some []
    | s => do
      let (l, rest) ← line s
      let ls ← lines n rest
      return l :: ls

/-- The assignments at the beginning of a list of lines, and the sections that follow. -/
def sections : List Line → List Assignment × List Section
  | [] => ([], [])
  | .assignment a :: ls =>
    let (as, ss) := sections ls
    (a :: as, ss)
  | .header parts :: ls =>
    let (as, ss) := sections ls
    ([], ⟨parts, false, as⟩ :: ss)
  | .repeatedHeader parts :: ls =>
    let (as, ss) := sections ls
    ([], ⟨parts, true, as⟩ :: ss)

/-- The table that lines write. -/
def ofLines (ls : List Line) : Option Entries := do
  let (first, ss) := sections ls
  ss.foldlM Entries.open (← Entries.assign [] first)

/-- A text without the mark of the byte order at its beginning. -/
def skipMark : List Char → List Char
  | '\ufeff' :: rest => rest
  | s => s

/-- The table of a document. -/
def parse (text : String) : Option Datum := do
  let s := skipMark text.toList
  let es ← ofLines (← lines (s.length + 1) s)
  return es.toDatum

end FpgaFlow.Toml
