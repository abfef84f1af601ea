import FpgaFlow.Toml.Moment
import FpgaFlow.Toml.Number
import FpgaFlow.Toml.Table

/-!
# Values of documents

A value is a text, a number, a truth value, a moment, a list between brackets, or a table between
braces. Lists may go over several lines, hold comments and end in a comma; tables between braces
stay on one line. Lists and tables are nested at most `maxDepth` deep.
-/

namespace FpgaFlow.Toml

/-- A value that holds no others. -/
def simpleValue : Scan Datum
  | 't' :: 'r' :: 'u' :: 'e' :: rest => some (.bool true, rest)
  | 'f' :: 'a' :: 'l' :: 's' :: 'e' :: rest => some (.bool false, rest)
  | '"' :: rest => (quoted ('"' :: rest)).map fun (s, rest) => (.text s, rest)
  | '\'' :: rest => (quoted ('\'' :: rest)).map fun (s, rest) => (.text s, rest)
  | s =>
    if beginsWithTime s ∨ beginsWithDate s then
      (moment .strict s).map fun (m, rest) => (ofMoment m, rest)
    else number s

/-- The items of a list, after its bracket, with the bracket that ends it. Each step reads at least
one character. -/
def items (value : Scan Datum) : Nat → Scan (List Datum)
  | 0, _ => none
  | n + 1, s => match skipGap s with
    | ']' :: rest => some ([], rest)
    | s => do
      let (d, rest) ← value s
      match skipGap rest with
      | ',' :: rest =>
        let (ds, rest) ← items value n rest
        return (d :: ds, rest)
      | ']' :: rest => return ([d], rest)
      | _ => none

/-- A key with the value written under it. -/
def assignment (value : Scan Datum) : Scan Assignment := fun s => do
  let (k, rest) ← key s
  let rest ← after? ['='] rest
  let (d, rest) ← value (skipBlanks rest)
  return (← Assignment.ofKey? k d, rest)

/-- The assignments of a table between braces, with the brace that ends it, when there is at least
one. -/
def members (value : Scan Datum) : Nat → Scan (List Assignment)
  | 0, _ => none
  | n + 1, s => do
    let (a, rest) ← assignment value s
    match skipBlanks rest with
    | ',' :: rest =>
      let (as, rest) ← members value n rest
      return (a :: as, rest)
    | '\x7d' :: rest => return ([a], rest)
    | _ => none

/-- A value in which lists and tables are nested at most to some depth. -/
def valueTo : Nat → Scan Datum
  | 0, s => simpleValue s
  | depth + 1, s => match s with
    | '[' :: rest => (items (valueTo depth) (rest.length + 1) rest).map fun (ds, rest) =>
        (.list ds, rest)
    | '\x7b' :: rest => match skipBlanks rest with
      | '\x7d' :: rest => some (.map [], rest)
      | rest => do
        let (as, rest) ← members (valueTo depth) (rest.length + 1) rest
        let es ← Entries.assign [] as
        return (es.toDatum, rest)
    | s => simpleValue s

/-- A value. -/
def value : Scan Datum :=
  valueTo maxDepth

end FpgaFlow.Toml
