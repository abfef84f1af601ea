import FpgaFlow.Text

/-!
# Numbers of double precision

A finite number of double precision is `m * 2 ^ q` with a sign, where `m` has at most 53 binary
digits and `q` is at least -1074. A decimal is read as the nearest such number, and of two equally
near ones as that with the even `m` (`ofScaled`). All arithmetic is on natural numbers; nothing is
rounded on the way.

`ofText?` reads the usual notation: an optional sign, digits with an optional point, an optional
exponent, or one of the words `inf`, `infinity` and `nan` in any case.
-/

namespace FpgaFlow.Decimal

/-- A number of double precision. -/
inductive Binary64 where
  | finite (negative : Bool) (m : Nat) (q : Int)
  | infinite (negative : Bool)
  | notANumber
  deriving DecidableEq, Repr

/-- The quotient of two natural numbers, rounded to the nearest; a half goes to the even side. -/
def roundDiv (num den : Nat) : Nat :=
  let down := num / den
  match compare (2 * (num % den)) den with
  | .lt => down
  | .gt => down + 1
  | .eq => if down % 2 = 0 then down else down + 1

/-- A power, where negative exponents count as zero. -/
def power (base : Nat) (exponent : Int) : Nat :=
  Nat.pow base exponent.toNat

/-- The least number with 53 binary digits. -/
def leastFull : Nat := 4503599627370496

namespace Binary64

/-- The number of double precision nearest to `num / den`. -/
def ofRatio (negative : Bool) (num den : Nat) : Binary64 :=
  let quotient (q : Int) : Nat × Nat := (num * power 2 (-q), den * power 2 q)
  let first : Int := max ((Nat.log2 num : Int) - Nat.log2 den - 52) (-1074)
  let q : Int :=
    let (n, d) := quotient first
    if n / d < leastFull ∧ -1074 < first then first - 1 else first
  let (n, d) := quotient q
  let m := roundDiv n d
  let (m, q) := if m = 2 * leastFull then (leastFull, q + 1) else (m, q)
  if 971 < q then .infinite negative else .finite negative m q

/-- The number of double precision nearest to `digits * 10 ^ exponent`.

Outside the range of sizes that double precision has, nothing is computed: the number is beyond
the largest one or nearest to zero. -/
def ofScaled (negative : Bool) (digits : Nat) (exponent : Int) : Binary64 :=
  let size : Int := (Nat.toDigits 10 digits).length + exponent
  if digits = 0 ∨ size < -330 then .finite negative 0 (-1074)
  else if 310 < size then .infinite negative
  else ofRatio negative (digits * power 10 exponent) (power 10 (-exponent))

/-- The number of double precision nearest to an integer. -/
def ofInt (i : Int) : Binary64 :=
  ofScaled (i < 0) i.natAbs 0

/-- A whole number of digits with an optional sign. -/
def exponent? : List Char → Option Int
  | '-' :: cs => (Text.digits? cs).map fun n => -(n : Int)
  | '+' :: cs => (Text.digits? cs).map fun n => (n : Int)
  | cs => (Text.digits? cs).map fun n => (n : Int)

/-- Digits with an optional point; there is a digit on one side of it. -/
def mantissa? (cs : List Char) : Option (Nat × Nat) :=
  let (whole, fraction) := match Text.cutAt ['.'] cs with
    | some (before, after) => (before, after)
    | none => (cs, [])
  (Text.digits? (whole ++ fraction)).map fun n => (n, fraction.length)

/-- A number without its sign. -/
def unsigned? (negative : Bool) (cs : List Char) : Option Binary64 :=
  match String.ofList (cs.map Char.toLower) with
  | "inf" | "infinity" => some (.infinite negative)
  | "nan" => some .notANumber
  | _ =>
    let (front, exponent) := match cs.span fun c => c != 'e' && c != 'E' with
      | (front, []) => (front, some 0)
      | (front, _ :: rest) => (front, exponent? rest)
    match mantissa? front, exponent with
    | some (digits, places), some e => some (ofScaled negative digits (e - places))
    | _, _ => none

/-- The number that a text writes, if it writes one. -/
def ofText? (s : String) : Option Binary64 :=
  match s.toList with
  | '-' :: cs => unsigned? true cs
  | '+' :: cs => unsigned? false cs
  | cs => unsigned? false cs

end Binary64

end FpgaFlow.Decimal
