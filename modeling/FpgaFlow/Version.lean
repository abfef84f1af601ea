import FpgaFlow.Text

/-!
# Versions

A version is a decimal: digits with at most one point and at least one digit. Versions are compared
as the numbers they write, digit by digit and of any length, so that `9.1` is below `14.2` and
`14.10` is below `14.7`. Spellings of one number are ordered by their text (`Version.order`), so
that no two different spellings are equal.
-/

namespace FpgaFlow

/-- A version with its digits: those of the whole part without zeros in front, those of the
fraction without zeros at the end. -/
structure Version where
  text : String
  whole : List Char
  fraction : List Char
  deriving DecidableEq, Repr

namespace Version

/-- The parts of a text before and after its first point. -/
def parts (cs : List Char) : List Char × List Char :=
  (Text.cutAt ['.'] cs).getD (cs, [])

/-- The version that a text writes. -/
def parse? (text : String) : Option Version :=
  let (whole, fraction) := parts text.toList
  if whole.isEmpty && fraction.isEmpty then none
  else if whole.all Char.isDigit && fraction.all Char.isDigit then
    some {
      text := text
      whole := whole.dropWhile (· == '0')
      fraction := (fraction.reverse.dropWhile (· == '0')).reverse }
  else none

/-- Comparison of the numbers that two versions write. A longer whole part is the larger one. -/
def orderNumeric (a b : Version) : Ordering :=
  (compare a.whole.length b.whole.length).then
    ((compare a.whole b.whole).then (compare a.fraction b.fraction))

/-- Comparison as numbers; spellings of one number are compared by their text. -/
def order (a b : Version) : Ordering :=
  (orderNumeric a b).then (compare a.text b.text)

/-- The largest of a list of versions. -/
def newest? : List Version → Option Version
  | [] => none
  | v :: vs => match newest? vs with
    | some w => if order w v == .gt then some w else some v
    | none => some v

/-- The versions in ascending order. -/
def sort (vs : List Version) : List Version :=
  vs.mergeSort fun a b => order a b != .gt

end Version

end FpgaFlow
