import FpgaFlow.Decimal.Shortest

/-!
# Data

The values that documents and records are read from and written to: numbers, texts, truth values,
lists and maps whose entries keep their order. Manifests and configuration files are read into
them, records are encoded as them, and reports are printed from them.
-/

namespace FpgaFlow

open Decimal

/-- A value of a document or record. -/
inductive Datum where
  | null
  | bool (b : Bool)
  | int (i : Int)
  | float (x : Binary64)
  | text (s : String)
  | list (items : List Datum)
  | map (entries : List (String × Datum))
  deriving Inhabited, Repr

namespace Datum

/-- The texts of a list. -/
def texts (ss : List String) : Datum :=
  .list (ss.map .text)

/-- A value that may be missing. -/
def ofOption {α : Type} (f : α → Datum) : Option α → Datum
  | some a => f a
  | none => .null

/-- What a value is, in the words of a message, with numbers written by `number`. -/
def describe (number : Binary64 → String) : Datum → String
  | null => "null"
  | bool b => "boolean `" ++ (if b then "true" else "false") ++ "`"
  | int i => "integer `" ++ toString i ++ "`"
  | float x => "floating point `" ++ number x ++ "`"
  | text s => "string " ++ Text.quoted s
  | list _ => "sequence"
  | map _ => "map"

end Datum

end FpgaFlow
