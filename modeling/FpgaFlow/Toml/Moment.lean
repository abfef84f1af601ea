import FpgaFlow.Toml.Scan

/-!
# Dates and times of documents

A moment is a date, a time of day, or both with an optional distance from universal time. It is kept
as its text in one notation: `T` between date and time, at most nine digits of a second and no zeros
at their end, `Z` or hours and minutes for the distance. As a value of a document it is a map with
one entry of a name of its own; a document may also write that map out (`wellDated`).

A moment that stands in a document by itself keeps to the hours of a day (`Hours.strict`); one that
is written out as a text may also have the hour 24 and any distance of at most a day (`Hours.wide`).
-/

namespace FpgaFlow.Toml

/-- Two digits of a number. -/
def twoDigits (n : Nat) : String :=
  if n < 10 then "0" ++ toString n else toString n

/-- Four digits of a number. -/
def fourDigits (n : Nat) : String :=
  let ds := (toString n).toList
  String.ofList (List.replicate (4 - ds.length) '0' ++ ds)

/-- A number of two digits in a range, as its text. -/
def twoDigitsIn (first last : Nat) : Scan String := fun s => do
  let (n, rest) ← digitRun Char.isDigit 10 2 s
  if first ≤ n ∧ n ≤ last then return (twoDigits n, rest) else none

def isLeapYear (year : Nat) : Bool :=
  year % 4 = 0 && (year % 100 ≠ 0 || year % 400 = 0)

/-- The number of days of a month. -/
def daysOfMonth (year month : Nat) : Nat :=
  if month = 2 then (if isLeapYear year then 29 else 28)
  else if month ∈ [4, 6, 9, 11] then 30
  else 31

/-- A date, after its year and the bar that follows it. -/
def dateAfter (year : Nat) : Scan String := fun s => do
  let (month, rest) ← digitRun Char.isDigit 10 2 s
  if month < 1 ∨ 12 < month then none
  let rest ← after? ['-'] rest
  let (day, rest) ← twoDigitsIn 1 (daysOfMonth year month) rest
  return (fourDigits year ++ "-" ++ twoDigits month ++ "-" ++ day, rest)

/-- The digits of a second behind its point, as they are kept. -/
def fraction : Scan String
  | '.' :: rest =>
    match rest.span Char.isDigit with
    | ([], _) => none
    | (ds, rest) =>
      let kept := ((ds.take 9).reverse.dropWhile (· == '0')).reverse
      some (if kept.isEmpty then "" else "." ++ String.ofList kept, rest)
  | s => some ("", s)

/-- How far the parts of a moment go: the hour of a time of day, and the hours and minutes of its
distance from universal time. -/
structure Hours where
  last : Nat
  furthest : Nat
  furthestMinute : Nat

/-- The hours of a day. -/
def Hours.strict : Hours := ⟨23, 23, 59⟩

/-- The hours of a day and the one after them, and any distance. -/
def Hours.wide : Hours := ⟨24, 99, 99⟩

/-- A time of day. -/
def time (hours : Hours) : Scan String := fun s => do
  let (hour, rest) ← twoDigitsIn 0 hours.last s
  let rest ← after? [':'] rest
  let (minute, rest) ← twoDigitsIn 0 59 rest
  let rest ← after? [':'] rest
  let (second, rest) ← twoDigitsIn 0 60 rest
  let (part, rest) ← fraction rest
  return (hour ++ ":" ++ minute ++ ":" ++ second ++ part, rest)

/-- A distance from universal time in minutes, as its text. One of nothing is not negative. -/
def distanceText (negative : Bool) (minutes : Nat) : String :=
  (if negative && minutes != 0 then "-" else "+") ++
    twoDigits (minutes / 60) ++ ":" ++ twoDigits (minutes % 60)

/-- The distance from universal time, if one is given; it is at most a day. -/
def offset (range : Hours) : Scan String
  | c :: rest =>
    if c = 'Z' ∨ c = 'z' then some ("Z", rest)
    else if c = '+' ∨ c = '-' then do
      let (hours, rest) ← digitRun Char.isDigit 10 2 rest
      let rest ← after? [':'] rest
      let (minutes, rest) ← digitRun Char.isDigit 10 2 rest
      let distance := 60 * hours + minutes
      if hours ≤ range.furthest ∧ minutes ≤ range.furthestMinute ∧ distance ≤ 1440 then
        some (distanceText (c == '-') distance, rest)
      else none
    else some ("", c :: rest)
  | [] => some ("", [])

/-- Whether a text begins like a time of day. -/
def beginsWithTime : List Char → Bool
  | a :: b :: ':' :: _ => a.isDigit && b.isDigit
  | _ => false

/-- Whether a text begins like a date. -/
def beginsWithDate (s : List Char) : Bool :=
  (s.take 4).all Char.isDigit && (s.drop 4).head? == some '-'

/-- What follows a date: a time of day with an offset, or nothing. -/
def timeAfterDate (hours : Hours) : Scan String
  | c :: rest =>
    if (c = 'T' ∨ c = 't' ∨ c = ' ') ∧ beginsWithTime rest then do
      let (t, rest) ← time hours rest
      let (o, rest) ← offset hours rest
      return ("T" ++ t ++ o, rest)
    else some ("", c :: rest)
  | [] => some ("", [])

/-- A moment, as its text. -/
def moment (hours : Hours) : Scan String := fun s =>
  if beginsWithTime s then time hours s
  else do
    let (year, rest) ← digitRun Char.isDigit 10 4 s
    let rest ← after? ['-'] rest
    let (d, rest) ← dateAfter year rest
    let (t, rest) ← timeAfterDate hours rest
    return (d ++ t, rest)

/-- The name of the only entry of a moment. -/
def momentKey : String := "$__toml_private_datetime"

/-- A moment as a value. -/
def ofMoment (text : String) : Datum :=
  .map [(momentKey, .text text)]

/-- The text of a moment, as it is kept, if a text writes one out. -/
def moment? (text : String) : Option String :=
  match moment .wide text.toList with
  | some (m, []) => some m
  | _ => none

mutual

/-- Whether every map that begins with the entry of a moment has a moment in it. -/
def wellDated : Datum → Bool
  | .list items => wellDatedItems items
  | .map [] => true
  | .map ((key, d) :: rest) =>
    if key = momentKey then
      match d with
      | .text s => (moment? s).isSome
      | _ => false
    else wellDated d && wellDatedEntries rest
  | _ => true

def wellDatedItems : List Datum → Bool
  | [] => true
  | d :: ds => wellDated d && wellDatedItems ds

def wellDatedEntries : List (String × Datum) → Bool
  | [] => true
  | (_, d) :: rest => wellDated d && wellDatedEntries rest

end

end FpgaFlow.Toml
