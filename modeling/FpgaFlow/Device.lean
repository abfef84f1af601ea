import FpgaFlow.Fault
import FpgaFlow.Schema

/-!
# Devices

A device is named by its part number, such as `xc6slx45-csg324-3`. Its family code is the two
characters after the vendor mark `xc`, or its first two characters, counted in bytes: a character
that needs more bytes than are left has no part in the code, and then there is no code. The family
code selects the architecture that the open synthesizer is told (`architecture`).
-/

namespace FpgaFlow

/-- A part number, handed to the tools as it is. -/
structure Device where
  id : String
  deriving DecidableEq, Repr, Inhabited

namespace Device

/-- The characters that make up exactly `n` bytes at the beginning of a text. -/
def takeBytes? : Nat → List Char → Option (List Char)
  | 0, _ => some []
  | _ + 1, [] => none
  | n + 1, c :: cs =>
    if c.utf8Size ≤ n + 1 then (takeBytes? (n + 1 - c.utf8Size) cs).map (c :: ·) else none

/-- The family code. -/
def familyCode? (d : Device) : Option String :=
  let rest := match d.id.toList with
    | 'x' :: 'c' :: cs => cs
    | cs => cs
  (takeBytes? 2 rest).map String.ofList

/-- The families with an architecture of their own. -/
def architectures : List (String × String) :=
  [("6s", "spartan6"), ("7a", "artix7"), ("7k", "kintex7"), ("7v", "virtex7"), ("7z", "zynq7000")]

/-- The architecture of a device. -/
def architecture (d : Device) : Except Fault String :=
  let code := d.familyCode?.getD ""
  match architectures.lookup code with
  | some a => .ok a
  | none => .error (.unknownArchitecture d.id code)

def encode (d : Device) : Datum :=
  .text d.id

def decode : Schema.Reader Device :=
  fun d => (Schema.text d).map Device.mk

end Device

end FpgaFlow
