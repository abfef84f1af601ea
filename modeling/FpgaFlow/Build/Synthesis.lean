import FpgaFlow.Design
import FpgaFlow.XstProject
import FpgaFlow.YosysScript

/-!
# Handing sources to a synthesizer

The vendor's synthesizer is run later by the control script, so that only its project is written.
The open synthesizer is run at once on its script, and it has to end with exit code zero.
-/

namespace FpgaFlow.Action

/-- Writes the project of the vendor's synthesizer and gives the names of its files. -/
def writeXstProject (directory : Path) (device : Device) (sources : List SourceFile)
    (includes : List Path) (name options : String) : Action (List String) := do
  let list := name ++ ".prj"
  let script := name ++ ".xst"
  writeText (directory.child list) (XstProject.sourceList sources)
  writeText (directory.child script) (XstProject.runScript device includes name options)
  return [list, script]

/-- The program of the open synthesizer: the one that the variable `YOSYS` names, or `yosys`. -/
def yosysProgram (h : Host) : Path :=
  ⟨(h.valueOf? "YOSYS").getD "yosys"⟩

/-- Writes the script of the open synthesizer, runs it, and gives the name of the script. -/
def runYosys (tools : Tools) (directory : Path) (device : Device) (sources : List SourceFile)
    (includes : List Path) (name : String) : Action String := do
  let script := name ++ ".ys"
  let text ← look fun _ => (YosysScript.render device sources includes name).mapError fun fault =>
    Failure.of (.fault fault)
  writeText (directory.child script) text
  let program ← look fun h => .ok (yosysProgram h)
  runSuccessfully tools .yosys program [script]
  return script

/-- Runs a specialized synthesizer for the signals at the top. -/
def runSynthesizer (tools : Tools) (signals : List String) : Synthesizer → Action Unit
  | .program path arguments => runSuccessfully tools .specialized path (arguments ++ signals)
  | .hosted synthesize => look fun _ => synthesize signals

end FpgaFlow.Action
