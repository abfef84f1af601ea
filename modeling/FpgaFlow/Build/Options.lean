import FpgaFlow.Design
import FpgaFlow.Installation
import FpgaFlow.Mode
import FpgaFlow.Source
import FpgaFlow.ToolOptions

/-!
# Options of a build

A build has options, which it never changes, and equipment: the tools, the lowerings for
primitives, and a specialized synthesizer if there is one. Its report says what it did.
-/

namespace FpgaFlow.Build

/-- The options of a build. -/
structure Options where
  device : Device
  /-- Where the build writes and runs everything; it is made if it is missing. -/
  directory : Path
  /-- What every generated file is named after. -/
  name : String
  installRoot : Path
  /-- Whether the control script sets up the environment of the tools. -/
  source : Bool
  /-- Whether the tools are run. -/
  run : Bool
  mode : Mode
  tools : ToolOptions
  /-- Further sources, read before the generated top module. -/
  sources : List SourceFile
  includes : List Path
  deriving DecidableEq, Repr

namespace Options

/-- The options of a build for a device when nothing else is said. -/
def default (device : Device) : Options where
  device := device
  directory := ⟨"build"⟩
  name := "top"
  installRoot := defaultInstallRoot
  source := true
  run := true
  mode := .xst
  tools := {}
  sources := []
  includes := []

/-- The options with every path made absolute. -/
def absolutize (base : Path) (o : Options) : Options :=
  { o with
    directory := Path.absolutize base o.directory
    installRoot := Path.absolutize base o.installRoot
    sources := o.sources.map (SourceFile.absolutize base)
    includes := o.includes.map (Path.absolutize base) }

/-- The options of the tools for the control script. A netlist that the open synthesizer made does
not name its device, so the device is added to the options of the tool that reads it. -/
def scriptTools (o : Options) : ToolOptions :=
  if o.mode = .yosys then
    let added := "-p " ++ o.device.id
    { o.tools with
      ngdbuild := if o.tools.ngdbuild = "" then added else o.tools.ngdbuild ++ " " ++ added }
  else o.tools

def encode (o : Options) : Datum :=
  .map [("device", o.device.encode), ("build_dir", .text o.directory.text),
    ("build_name", .text o.name), ("ise_path", .text o.installRoot.text),
    ("source", .bool o.source), ("run", .bool o.run), ("mode", o.mode.encode),
    ("tool_options", o.tools.encode), ("sources", .list (o.sources.map SourceFile.encode)),
    ("include_paths", Datum.texts (o.includes.map Path.text))]

end Options

/-- What a build works with. -/
structure Equipment where
  tools : Tools
  lowering : LoweringTable
  synthesizer : Option Synthesizer

/-- What a build did. -/
structure Report where
  mode : Mode
  netlist : Netlist
  directory : Path
  /-- The names of the generated files, in the order in which they were written. -/
  files : List String
  ranTools : Bool
  bitstream : Option Path
  states : List BuildState
  deriving DecidableEq, Repr

def Report.encode (r : Report) : Datum :=
  .map [("mode", r.mode.encode), ("netlist_input", r.netlist.encode),
    ("build_dir", .text r.directory.text), ("files", Datum.texts r.files),
    ("ran_toolchain", .bool r.ranTools),
    ("bitstream", Datum.ofOption (fun p => .text p.text) r.bitstream),
    ("states", Datum.texts (r.states.map BuildState.name))]

end FpgaFlow.Build
