import FpgaFlow.Constraint
import FpgaFlow.Device
import FpgaFlow.Host
import FpgaFlow.Lowering

/-!
# Designs

A build never looks into a design. It asks for one of two texts, Verilog or a finished netlist, and
gets the constraints with it. A design may look at files when it is asked.

A specialized synthesizer takes over the making of the netlist. It is a program, or it is part of
the caller.
-/

namespace FpgaFlow

/-- The text of a design with its constraints. -/
structure Generated where
  text : String
  signals : List SignalConstraint
  commands : List String
  deriving Repr

/-- What a netlist is made for. -/
structure NetlistTarget where
  cellLibrary : String
  vendor : String
  device : Device
  deriving DecidableEq, Repr

/-- The vendor's cells for a device. -/
def NetlistTarget.xilinx (device : Device) : NetlistTarget where
  cellLibrary := "UNISIMS"
  vendor := "Xilinx"
  device := device

/-- A design that can be asked for its texts. -/
structure Generator where
  verilog : LoweringTable → View → Except Failure Generated
  netlist : NetlistTarget → View → Except Failure Generated
  /-- The names of the signals at the top. -/
  ioSignals : List String

/-- What makes the netlist of a design in a way of its own. -/
inductive Synthesizer where
  /-- A program that is run with its arguments and the names of the signals at the top. -/
  | program (path : Path) (arguments : List String)
  /-- A part of the caller, which is given the names of the signals at the top. -/
  | hosted (synthesize : List String → Except Failure Unit)

end FpgaFlow
