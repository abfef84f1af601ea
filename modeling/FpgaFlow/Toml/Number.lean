import FpgaFlow.Toml.Scan

/-!
# Numbers of documents

A whole number is written in base ten with an optional sign, or in base sixteen, eight or two
without one, and has 64 bits. A number with a fraction or an exponent, `inf` and `nan` are of double
precision; a number beyond the largest one is refused.
-/

namespace FpgaFlow.Toml

open Decimal

/-- A sign, and whether it is a minus. -/
def sign : List Char → Bool × List Char
  | '-' :: rest => (true, rest)
  | '+' :: rest => (false, rest)
  | s => (false, s)

/-- The digits of a whole number in base ten. Only zero itself begins with a zero. -/
def wholeDigits : Scan (List Char)
  | '0' :: rest => some (['0'], rest)
  | s => digits Char.isDigit s

/-- A whole number of 64 bits with a sign. -/
def word? (negative : Bool) (n : Nat) : Option Int :=
  let i : Int := if negative then -n else n
  if Int64.minValue.toInt ≤ i ∧ i ≤ Int64.maxValue.toInt then some i else none

/-- The digits of a base. -/
def isDigitOf (base : Nat) (c : Char) : Bool :=
  isHexDigit c && digitValue c < base

/-- A whole number in another base, after the mark of the base. -/
def basedInteger (base : Nat) : Scan Datum := fun s => do
  let (ds, rest) ← digits (isDigitOf base) s
  let i ← word? false (ofDigits base ds)
  return (.int i, rest)

/-- The exponent of a number. Without one, it is zero. -/
def exponent : List Char → Option (Int × List Char)
  | c :: rest =>
    if c = 'e' ∨ c = 'E' then do
      let (negative, rest) := sign rest
      let (ds, rest) ← digits Char.isDigit rest
      let n : Int := ofDigits 10 ds
      return (if negative then -n else n, rest)
    else some (0, c :: rest)
  | [] => some (0, [])

/-- A number of double precision from its digits. -/
def float? (negative : Bool) (ds : List Char) (e : Int) : Option Datum :=
  match Binary64.ofScaled negative (ofDigits 10 ds) e with
  | .infinite false => none
  | x => some (.float x)

/-- The rest of a number after its sign and its first digits. -/
def afterWhole (negative : Bool) (whole : List Char) : Scan Datum
  | '.' :: rest => do
    let (fraction, rest) ← digits Char.isDigit rest
    let (e, rest) ← exponent rest
    return (← float? negative (whole ++ fraction) (e - fraction.length), rest)
  | c :: rest =>
    if c = 'e' ∨ c = 'E' then do
      let (e, rest) ← exponent (c :: rest)
      return (← float? negative whole e, rest)
    else do return (.int (← word? negative (ofDigits 10 whole)), c :: rest)
  | [] => do return (.int (← word? negative (ofDigits 10 whole)), [])

/-- A number. -/
def number : Scan Datum
  | '0' :: 'x' :: rest => basedInteger 16 rest
  | '0' :: 'o' :: rest => basedInteger 8 rest
  | '0' :: 'b' :: rest => basedInteger 2 rest
  | s =>
    let (negative, rest) := sign s
    match rest with
    | 'i' :: 'n' :: 'f' :: rest => some (.float (.infinite negative), rest)
    | 'n' :: 'a' :: 'n' :: rest => some (.float .notANumber, rest)
    | _ => do
      let (whole, rest) ← wholeDigits rest
      afterWhole negative whole rest

end FpgaFlow.Toml
