import FpgaFlow.Device
import FpgaFlow.Source

/-!
# Scripts for the open synthesizer

A script reads every source, each with the same directories for included files, and then writes the
netlist of the top module for the architecture of the device. There is no script for a device
without a known architecture.
-/

namespace FpgaFlow.YosysScript

/-- The flags for the directories of included files. -/
def includeFlags (includes : List Path) : String :=
  String.join (includes.map fun p => " -I" ++ p.text)

/-- The line that reads a source file. -/
def readLine (includes : List Path) (s : SourceFile) : String :=
  "read_" ++ s.language.name ++ includeFlags includes ++ " " ++ s.path.text ++ "\n"

/-- The lines that synthesize what was read. -/
def synthesis (architecture name : String) : String :=
  "hierarchy -check -top top\nproc; memory; opt; fsm; opt\nsynth_xilinx -arch " ++ architecture ++
    " -top top -edif " ++ name ++ ".edif"

/-- The script that writes the netlist `name`. -/
def render (device : Device) (sources : List SourceFile) (includes : List Path) (name : String) :
    Except Fault String := do
  let architecture ← device.architecture
  return String.join (sources.map (readLine includes)) ++ synthesis architecture name

end FpgaFlow.YosysScript
