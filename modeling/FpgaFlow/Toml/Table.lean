import FpgaFlow.Toml.Quoted

/-!
# Tables of documents

A document builds one table step by step. A table in it is opened by a header, implied by the
header of a table below it, or made by a key of several parts (`Origin`), and it is open to what
comes later accordingly: a header opens a table once, and one that was implied before is then opened
where the header is; a key of several parts goes through tables that such keys made, and through
tables that headers implied as long as it does not end there. A repeated header adds a table to a
list of tables, and whatever names that list goes to its last table.

No key is written twice.
-/

namespace FpgaFlow.Toml

/-- How a table came about. -/
inductive Origin where
  | header
  | implied
  | dotted
  deriving DecidableEq, Repr

/-- What a key holds while the document is being read. -/
inductive Node where
  | value (d : Datum)
  | table (origin : Origin) (entries : List (String × Node))
  | tables (items : List (List (String × Node)))

/-- The entries of a table, in the order in which they were written. -/
abbrev Entries := List (String × Node)

namespace Entries

/-- Changes what a key holds, or adds the key at the end. -/
def update (key : String) (f : Option Node → Option Node) : Entries → Option Entries
  | [] => (f none).map fun n => [(key, n)]
  | (k, n) :: rest =>
    if k = key then (f (some n)).map fun n => (k, n) :: rest
    else (update key f rest).map fun rest => (k, n) :: rest

/-- The entries without a key. -/
def without (key : String) (es : Entries) : Entries :=
  es.filter fun e => e.1 != key

/-- Changes the last table of a list. -/
def updateLast (f : Entries → Option Entries) (items : List Entries) : Option (List Entries) :=
  match items.getLast? with
  | some last => (f last).map fun changed => items.dropLast ++ [changed]
  | none => none

/-- Writes a value under a key of several parts, all but the last of which name tables. -/
def insert (d : Datum) (key : String) : List String → Entries → Option Entries
  | [], es => if (es.lookup key).isSome then none else some (es ++ [(key, .value d)])
  | part :: parts, es => update part (fun
    | none => (insert d key parts []).map (.table .dotted)
    | some (.table origin inner) =>
      if origin = .header ∨ (parts = [] ∧ origin ≠ .dotted) then none
      else (insert d key parts inner).map (.table origin)
    | some (.tables items) =>
      if parts = [] then none else (updateLast (insert d key parts) items).map .tables
    | some (.value _) => none) es

/-- Changes the table that the parts of a header name; tables that are missing are implied. -/
def updateAt (f : Entries → Option Entries) : List String → Entries → Option Entries
  | [], es => f es
  | part :: parts, es => update part (fun
    | none => (updateAt f parts []).map (.table .implied)
    | some (.table origin inner) => (updateAt f parts inner).map (.table origin)
    | some (.tables items) => (updateLast (updateAt f parts) items).map .tables
    | some (.value _) => none) es

/-- What the parts of a header name, if it is there. -/
def find? : List String → Entries → Option Node
  | [], _ => none
  | [key], es => es.lookup key
  | part :: parts, es => match es.lookup part with
    | some (.table _ inner) => find? parts inner
    | some (.tables items) => items.getLast?.bind (find? parts)
    | _ => none

/-- Puts a table under a key. A table that was only implied gives way to it. -/
def place (key : String) (table : Entries) (es : Entries) : Option Entries :=
  match es.lookup key with
  | none => some (es ++ [(key, .table .header table)])
  | some (.table .implied _) => some (without key es ++ [(key, .table .header table)])
  | some _ => none

/-- Adds a table to the list of tables under a key. -/
def placeItem (key : String) (table : Entries) : Entries → Option Entries :=
  update key fun
    | none => some (.tables [table])
    | some (.tables items) => some (.tables (items ++ [table]))
    | some _ => none

end Entries

/-- A value written under a key. -/
structure Assignment where
  parts : List String
  key : String
  value : Datum

/-- The assignment to a key. -/
def Assignment.ofKey? (key : List String) (value : Datum) : Option Assignment :=
  key.getLast?.map fun last => ⟨key.dropLast, last, value⟩

/-- A table after some assignments. -/
def Entries.assign (es : Entries) (assignments : List Assignment) : Option Entries :=
  assignments.foldlM (fun es a => es.insert a.value a.key a.parts) es

/-- A header with the assignments that follow it. A repeated header adds to a list of tables. -/
structure Section where
  header : List String
  repeated : Bool
  assignments : List Assignment

/-- A document after one more section. -/
def Entries.open (es : Entries) (s : Section) : Option Entries := do
  let key ← s.header.getLast?
  if s.repeated then
    let table ← Entries.assign [] s.assignments
    es.updateAt (Entries.placeItem key table) s.header.dropLast
  else
    let implied := match es.find? s.header with
      | some (.table .implied inner) => inner
      | _ => []
    let table ← Entries.assign implied s.assignments
    es.updateAt (Entries.place key table) s.header.dropLast

mutual

/-- What a key holds, as a value. -/
def Node.toDatum : Node → Datum
  | .value d => d
  | .table _ entries => .map (entriesToData entries)
  | .tables items => .list (itemsToData items)

def entriesToData : List (String × Node) → List (String × Datum)
  | [] => []
  | (key, n) :: rest => (key, n.toDatum) :: entriesToData rest

def itemsToData : List (List (String × Node)) → List Datum
  | [] => []
  | entries :: rest => .map (entriesToData entries) :: itemsToData rest

end

/-- A table as a value. -/
def Entries.toDatum (es : Entries) : Datum :=
  .map (entriesToData es)

end FpgaFlow.Toml
