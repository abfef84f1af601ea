import FpgaFlow.Datum
import FpgaFlow.Path

/-!
# Reading records from data

A reader takes a value and gives what it stands for, or says in what way it does not fit
(`Mismatch`).

A record is read from a map by the names of its fields, or from a list by their positions
(`members`). What is wrong in a field that is there is reported first, in the order in which the
document has the fields (`Members.check`); fields that are not there come after that, in the order
in which the record declares them. Names that the record does not have are passed over. What a list
has after the last field is passed over in documents, but not in encoded records (`Surplus`).
-/

namespace FpgaFlow.Schema

open Decimal

/-- In what way a value does not fit. -/
inductive Mismatch where
  | missing (field : String)
  | wrongType (found : Datum) (expected : String)
  | wrongValue (found : Datum) (expected : String)
  | bareVariant (expected : String)
  | unknownVariant (name : String) (variants : List String)
  | wrongLength (count : Nat) (expected : String)
  | noMoment
  deriving Repr

/-- A name between the marks that messages put around names. -/
def marked (s : String) : String :=
  "`" ++ s ++ "`"

/-- The alternatives of a message. -/
def alternatives : List String → String
  | [a] => marked a
  | [a, b] => marked a ++ " or " ++ marked b
  | names => "one of " ++ String.intercalate ", " (names.map marked)

/-- The words for a mismatch, with numbers written by `number`. -/
def Mismatch.message (number : Binary64 → String) : Mismatch → String
  | missing field => "missing field " ++ marked field
  | wrongType found expected =>
    "invalid type: " ++ found.describe number ++ ", expected " ++ expected
  | wrongValue found expected =>
    "invalid value: " ++ found.describe number ++ ", expected " ++ expected
  | bareVariant expected => "invalid type: unit variant, expected " ++ expected
  | unknownVariant name variants =>
    "unknown variant " ++ marked name ++ ", expected " ++ alternatives variants
  | wrongLength count expected =>
    "invalid length " ++ toString count ++ ", expected " ++ expected
  | noMoment => "invalid datetime"

/-- What a value is read as, or why it does not fit. -/
abbrev Reader (α : Type) := Datum → Except Mismatch α

/-! ### Single values -/

def text : Reader String
  | .text s => .ok s
  | d => .error (.wrongType d "a string")

def path : Reader Path
  | .text s => .ok ⟨s⟩
  | d => .error (.wrongType d "path string")

def bool : Reader Bool
  | .bool b => .ok b
  | d => .error (.wrongType d "a boolean")

/-- A natural number below `bound`; `kind` names the range. -/
def natural (kind : String) (bound : Nat) : Reader Nat
  | .int i =>
    if 0 ≤ i ∧ i < bound then .ok i.toNat else .error (.wrongValue (.int i) kind)
  | d => .error (.wrongType d kind)

def word32 (d : Datum) : Except Mismatch UInt32 :=
  (natural "u32" UInt32.size d).map UInt32.ofNat

def word64 (d : Datum) : Except Mismatch UInt64 :=
  (natural "usize" UInt64.size d).map UInt64.ofNat

/-- A number of double precision; whole numbers count as well. -/
def number : Reader Binary64
  | .float x => .ok x
  | .int i => .ok (Binary64.ofInt i)
  | d => .error (.wrongType d "f64")

/-- A list, each item of which is read by `item`. -/
def listOf {α : Type} (item : Reader α) : Reader (List α)
  | .list ds => ds.mapM item
  | d => .error (.wrongType d "a sequence")

/-- A value that may be missing. -/
def optional {α : Type} (value : Reader α) : Reader (Option α)
  | .null => .ok none
  | d => (value d).map some

/-- One of the named values. -/
def oneOf {α : Type} (variants : List (String × α)) : Reader α
  | .text s => match variants.lookup s with
    | some a => .ok a
    | none => .error (.unknownVariant s (variants.map Prod.fst))
  | .map [(s, d)] => match variants.lookup s, d with
    | some a, .null => .ok a
    | some _, d => .error (.wrongType d "unit")
    | none, _ => .error (.unknownVariant s (variants.map Prod.fst))
  | .map entries => .error (.wrongValue (.map entries) "map with a single key")
  | d => .error (.wrongType d "string or map")

/-! ### Records -/

/-- The members of a record. -/
structure Members where
  pairs : List (String × Datum)
  /-- What is wrong when a member is not there, for a record that was given as a list. -/
  short : Option Mismatch
  /-- What is wrong with a list that goes on after the last field, if that is wrong. -/
  long : Option Mismatch

/-- What becomes of the items of a list after the last field of a record: in documents they are
passed over, in encoded records they are refused, and in records that follow a tag they are refused
with the count of those that were read. -/
inductive Surplus where
  | passed
  | refused
  | counted
  deriving DecidableEq, Repr

/-- A count of elements, in words. -/
def elements (n : Nat) : String :=
  toString n ++ (if n = 1 then " element" else " elements")

/-- What is wrong with a list of `count` items for a record of `known` fields. -/
def Surplus.mismatch? (s : Surplus) (count known : Nat) : Option Mismatch :=
  if count ≤ known then none
  else match s with
    | passed => none
    | refused => some (.wrongLength count "fewer elements in array")
    | counted => some (.wrongLength count (elements known ++ " in sequence"))

/-- The members of the record `what`, which has the given fields. -/
def members (surplus : Surplus) (what : String) (fields : List String) : Reader Members
  | .map entries => .ok ⟨entries, none, none⟩
  | .list items => .ok {
      pairs := fields.zip items
      short := some (.wrongLength items.length (what ++ " with " ++ elements fields.length))
      long := surplus.mismatch? items.length fields.length }
  | d => .error (.wrongType d what)

/-- Whether a value fits, without what it is read as. -/
def fits {α : Type} (value : Reader α) (d : Datum) : Except Mismatch Unit :=
  (value d).map fun _ => ()

namespace Members

/-- Whether the known fields that are there fit, in the order in which they are there, and nothing
follows them that is refused. -/
def check (m : Members) (rules : List (String × (Datum → Except Mismatch Unit))) :
    Except Mismatch Unit := do
  m.pairs.forM fun (name, d) => match rules.lookup name with
    | some rule => rule d
    | none => .ok ()
  match m.long with
  | some mismatch => .error mismatch
  | none => .ok ()

/-- A field that has to be there. -/
def required {α : Type} (m : Members) (field : String) (value : Reader α) : Except Mismatch α :=
  match m.pairs.lookup field with
  | some d => value d
  | none => .error (m.short.getD (.missing field))

/-- A field that need not be there when the record is a map. -/
def optional {α : Type} (m : Members) (field : String) (value : Reader α) :
    Except Mismatch (Option α) :=
  match m.pairs.lookup field, m.short with
  | some d, _ => Schema.optional value d
  | none, some mismatch => .error mismatch
  | none, none => .ok none

/-- A field with a value to take when it is not there. -/
def withDefault {α : Type} (m : Members) (field : String) (default : α) (value : Reader α) :
    Except Mismatch α :=
  match m.pairs.lookup field with
  | some d => value d
  | none => .ok default

end Members

end FpgaFlow.Schema
