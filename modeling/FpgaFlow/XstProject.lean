import FpgaFlow.Device
import FpgaFlow.Source

/-!
# Projects of the vendor's synthesizer

A project is two files: the list of the sources, one line per file with its language, and the run
script, which names that list, the top module, the netlist to write, the device and one directory
per line for included files.
-/

namespace FpgaFlow.XstProject

/-- The line of a source file. -/
def sourceLine (s : SourceFile) : String :=
  s.language.name ++ " work " ++ s.path.text ++ "\n"

/-- The list of the sources. -/
def sourceList (sources : List SourceFile) : String :=
  String.join (sources.map sourceLine)

def includeLine (directory : Path) : String :=
  "-vlgincdir " ++ directory.text ++ "\n"

/-- The run script. -/
def runScript (device : Device) (includes : List Path) (name options : String) : String :=
  "run\n-ifn " ++ name ++ ".prj\n-top top\n" ++ options ++ "\n-ofn " ++ name ++ ".ngc\n-p " ++
    device.id ++ "\n" ++ String.join (includes.map includeLine)

end FpgaFlow.XstProject
