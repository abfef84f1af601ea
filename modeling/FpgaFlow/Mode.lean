import FpgaFlow.Fault
import FpgaFlow.Schema

/-!
# Synthesis modes

A design reaches the implementation tools in one of four ways: synthesized from Verilog by `xst` or
by `yosys`, as a finished EDIF netlist, or as the netlist of a specialized synthesizer. The mode
decides which netlist the implementation tools are given.
-/

namespace FpgaFlow

/-- The netlist that the implementation tools start from. -/
inductive Netlist where
  | ngc
  | edif
  deriving DecidableEq, Repr

namespace Netlist

/-- The name of a netlist format, which is also the extension of its files. -/
def name : Netlist → String
  | ngc => "ngc"
  | edif => "edif"

def encode (n : Netlist) : Datum :=
  .text n.name

def decode : Schema.Reader Netlist :=
  Schema.oneOf [("ngc", ngc), ("edif", edif)]

end Netlist

/-- How a design reaches the implementation tools. -/
inductive Mode where
  | xst
  | yosys
  | edif
  | mist
  deriving DecidableEq, Repr, Inhabited

namespace Mode

def name : Mode → String
  | xst => "xst"
  | yosys => "yosys"
  | edif => "edif"
  | mist => "mist"

/-- The modes in which a design is given as Verilog. -/
def usesVerilog : Mode → Bool
  | xst | yosys => true
  | edif | mist => false

/-- Only `xst` makes the netlist while the control script runs. -/
def netlist : Mode → Netlist
  | xst => .ngc
  | yosys | edif | mist => .edif

/-- The modes by name. -/
def byName : List (String × Mode) :=
  [("xst", xst), ("yosys", yosys), ("edif", edif), ("mist", mist)]

/-- The mode that a text names, in any case. Only the letters of ASCII have to be lowered: no other
character has one of the letters of a mode's name as its lower case. -/
def parse (text : String) : Except Fault Mode :=
  match byName.lookup (Text.lowerAscii text) with
  | some mode => .ok mode
  | none => .error (.invalidMode text)

def encode (m : Mode) : Datum :=
  .text m.name

def decode : Schema.Reader Mode :=
  Schema.oneOf byName

/-- A mode is named by its name. -/
theorem parse_name (m : Mode) : parse m.name = .ok m := by
  cases m <;> rfl

end Mode

end FpgaFlow
