import FpgaFlow.Decimal.Binary64

/-!
# The fewest digits that read back

A number of double precision is written with the fewest decimal digits that read back as the same
number; of several texts of that length the one nearest to the number is taken, and of two equally
near ones the upper.

The numbers that read back as `m * 2 ^ q` form an interval around it, from halfway to the number
below to halfway to the number above, with its ends exactly when `m` is even (`readsBack`). For one
digit, two digits and so on, only the two multiples of the grid next to the number have to be
tried (`pick`).

`positional` writes the digits without an exponent, `exponential` with one. `plain`, `marked` and
`ranged` are the notations in use: without and with a point in whole numbers, and with an exponent
for very small and very large numbers.
-/

namespace FpgaFlow.Decimal

/-- Comparison of `a * 10 ^ i` with `n * 2 ^ j`. -/
def compareScaled (a : Nat) (i : Int) (n : Nat) (j : Int) : Ordering :=
  compare (a * power 10 i * power 2 (-j)) (n * power 2 j * power 10 (-i))

/-- Whether `digits * 10 ^ exponent` lies among the numbers that read back as `m * 2 ^ q`. -/
def readsBack (m : Nat) (q : Int) (digits : Nat) (exponent : Int) : Bool :=
  let below := if m = leastFull ∧ -1074 < q then 4 * m - 1 else 4 * m - 2
  let low := compareScaled digits exponent below (q - 2)
  let high := compareScaled digits exponent (4 * m + 2) (q - 2)
  (low == .gt || (m % 2 == 0 && low == .eq)) && (high == .lt || (m % 2 == 0 && high == .eq))

/-- The multiple of `10 ^ exponent` that reads back as `m * 2 ^ q` and is nearest to it. -/
def pick (m : Nat) (q exponent : Int) : Option Nat :=
  let num := m * power 2 q * power 10 (-exponent)
  let den := power 10 exponent * power 2 (-q)
  let down := num / den
  match readsBack m q down exponent, readsBack m q (down + 1) exponent with
  | true, true => if 2 * (num % den) < den then some down else some (down + 1)
  | true, false => some down
  | false, true => some (down + 1)
  | false, false => none

/-- The least `k` with `m * 2 ^ q < 10 ^ k`, searched upwards from `k` for `steps` steps. -/
def scaleFrom (m : Nat) (q : Int) : Nat → Int → Int
  | 0, k => k
  | steps + 1, k => if compareScaled 1 k m q == .gt then k else scaleFrom m q steps (k + 1)

/-- The least `k` with `m * 2 ^ q < 10 ^ k`. The search starts below the estimate from the binary
logarithm. -/
def scale (m : Nat) (q : Int) : Int :=
  let bits : Int := Nat.log2 m + q
  scaleFrom m q 6 (bits * 30103 / 100000 - 1)

/-- Tries one digit after the other. Seventeen digits always read back. -/
def search (m : Nat) (q k : Int) : Nat → Nat → Nat × Int
  | 0, _ => (m * power 2 q * power 5 (-q), if q < 0 then q else 0)
  | steps + 1, n => match pick m q (k - n) with
    | some digits => (digits, k - n)
    | none => search m q k steps (n + 1)

/-- The fewest digits that read back as `m * 2 ^ q`, and the power of ten they are multiplied by. -/
def shortest (m : Nat) (q : Int) : Nat × Int :=
  if m = 0 then (0, 0) else search m q (scale m q) 17 1

/-- `digits * 10 ^ exponent` without an exponent, with a point only where a fraction follows. -/
def positional (digits : Nat) (exponent : Int) : String :=
  let ds := Nat.toDigits 10 digits
  if 0 ≤ exponent then String.ofList (ds ++ List.replicate exponent.toNat '0')
  else
    let places := (-exponent).toNat
    let padded := List.replicate (places + 1 - ds.length) '0' ++ ds
    let fraction := (padded.drop (padded.length - places)).reverse.dropWhile (· == '0')
    let whole := padded.take (padded.length - places)
    String.ofList (if fraction.isEmpty then whole else whole ++ '.' :: fraction.reverse)

/-- The exponent of the first digit of `digits * 10 ^ exponent`. -/
def leading (digits : Nat) (exponent : Int) : Int :=
  exponent + (Nat.toDigits 10 digits).length - 1

/-- `digits * 10 ^ exponent` with one digit in front of the point, and with an exponent. Zeros at
the end of the digits are left out. -/
def exponential (digits : Nat) (exponent : Int) : String :=
  let e := leading digits exponent
  let mantissa := match ((Nat.toDigits 10 digits).reverse.dropWhile (· == '0')).reverse with
    | d :: rest@(_ :: _) => d :: '.' :: rest
    | ds => ds
  String.ofList mantissa ++ (if e < 0 then "e-" else "e+") ++ toString e.natAbs

namespace Binary64

/-- The text of a number; whole numbers have no point. -/
def plain : Binary64 → String
  | .finite negative m q =>
    let (digits, exponent) := shortest m q
    (if negative then "-" else "") ++ positional digits exponent
  | .infinite negative => if negative then "-inf" else "inf"
  | .notANumber => "NaN"

/-- The text of a number with a point in every finite one. -/
def marked (x : Binary64) : String :=
  match x with
  | .finite .. => if '.' ∈ x.plain.toList then x.plain else x.plain ++ ".0"
  | _ => x.plain

/-- The text of a number with an exponent below 0.00001 and from the seventeenth digit on. -/
def ranged (x : Binary64) : String :=
  match x with
  | .finite negative m q =>
    let (digits, exponent) := shortest m q
    let e := leading digits exponent
    if digits = 0 ∨ (-5 ≤ e ∧ e ≤ 15) then x.marked
    else (if negative then "-" else "") ++ exponential digits exponent
  | _ => x.marked

end Binary64

end FpgaFlow.Decimal
