import FpgaFlow.Mode
import FpgaFlow.ToolOptions

/-!
# The control script

The implementation tools run one after the other from one shell script, which stops at the first
tool that fails. A script has commands that set up the environment, one command per tool, and the
caller's commands at its end. The synthesizer is among the tools only when the netlist is its own.
-/

namespace FpgaFlow

/-- The commands of a control script. -/
structure ControlScript where
  prelude : List String
  stages : List String
  trailer : String
  deriving DecidableEq, Repr

namespace ControlScript

/-- The beginning of every script. -/
def header : String :=
  "# Autogenerated by isebuild\nset -e\n"

/-- The extension of the finished bitstream. -/
def bitstreamExtension : String := ".bit"

/-- The command of the synthesizer. -/
def synthesis (name : String) : String :=
  "xst -ifn " ++ name ++ ".xst"

def translate (name : String) (netlist : Netlist) (options : String) : String :=
  "ngdbuild " ++ options ++ " -uc " ++ name ++ ".ucf " ++ name ++ "." ++ netlist.name ++ " " ++
    name ++ ".ngd"

def mapping (name options : String) : String :=
  "map " ++ options ++ " -o " ++ name ++ "_map.ncd " ++ name ++ ".ngd " ++ name ++ ".pcf"

def placement (name options : String) : String :=
  "par " ++ options ++ " " ++ name ++ "_map.ncd " ++ name ++ ".ncd " ++ name ++ ".pcf"

def bitstream (name options : String) : String :=
  "bitgen " ++ options ++ " " ++ name ++ ".ncd " ++ name ++ bitstreamExtension

/-- One command per tool, in the order in which they run. -/
def toolStages (name : String) (netlist : Netlist) (options : ToolOptions) : List String :=
  (match netlist with
    | .ngc => [synthesis name]
    | .edif => []) ++
  [translate name netlist options.ngdbuild, mapping name options.map,
    placement name options.par, bitstream name options.bitgen]

/-- The script that makes the bitstream `name`. In the caller's commands the name takes the place
of its mark. -/
def assemble (name : String) (prelude : List String) (netlist : Netlist) (options : ToolOptions) :
    ControlScript where
  prelude := prelude
  stages := toolStages name netlist options
  trailer := Text.replaceAll "\x7bbuild_name\x7d" name options.commands

/-- Texts, each as a line of its own. -/
def lines (ss : List String) : String :=
  String.join (ss.map fun s => s ++ "\n")

/-- The text of a script. -/
def render (s : ControlScript) : String :=
  header ++ lines s.prelude ++ "\n" ++ lines s.stages ++ s.trailer

/-- Whether the synthesizer is among the tools. -/
def synthesizes (s : ControlScript) : Bool :=
  s.stages.any fun stage => "xst ".toList.isPrefixOf stage.toList

/-- The name of the script that makes the bitstream `name`. -/
def fileName (name : String) : String :=
  "build_" ++ name ++ ".sh"

end ControlScript

end FpgaFlow
