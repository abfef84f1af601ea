import FpgaFlow.Design
import FpgaFlow.Glob.Search
import FpgaFlow.Primitive
import FpgaFlow.Source
import FpgaFlow.Toml.Document
import FpgaFlow.Toml.Written
import FpgaFlow.Verilog.Splice

/-!
# Manifests

A manifest describes a design that is compiled already: its device, its Verilog and netlist files,
further sources, the pins of its signals, its clocks, and the primitives that are put into its top
module. Paths in it are read below the directory of the manifest.

`Action.loadManifest` reads one and checks it. `PrecompiledDesign.generator` is the design that it
describes.
-/

namespace FpgaFlow

/-- The section that says where the design is. -/
structure DesignSection where
  device : Device
  verilog : Option Path
  edif : Option Path
  sources : List String
  includeDirectories : List Path

/-- A signal with its pins. -/
structure SignalEntry where
  name : String
  pins : List String
  /-- The resource of the platform; without one it is named like the signal. -/
  resource : Option String
  index : UInt32
  subsignal : Option String
  ioStandard : Option String
  drive : Option UInt32
  misc : List String
  /-- Attributes for other toolchains, in ascending order of their names. -/
  others : List (String × String)

/-- A clock with its period in nanoseconds. -/
structure ClockEntry where
  name : String
  period : Decimal.Binary64

/-- The program that is the specialized synthesizer. -/
structure SynthesizerSection where
  program : Path
  arguments : List String

/-- A manifest. -/
structure Manifest where
  design : DesignSection
  signals : List SignalEntry
  clocks : List ClockEntry
  commands : List String
  primitives : List Primitive
  synthesizer : Option SynthesizerSection

namespace DesignSection

def decode : Schema.Reader DesignSection := fun d => do
  let m ← Schema.members .passed "struct DesignSection"
    ["device", "verilog", "edif", "sources", "include_dirs"] d
  m.check [("device", Schema.fits Device.decode),
    ("verilog", Schema.fits (Schema.optional Schema.path)),
    ("edif", Schema.fits (Schema.optional Schema.path)),
    ("sources", Schema.fits (Schema.listOf Schema.text)),
    ("include_dirs", Schema.fits (Schema.listOf Schema.path))]
  return {
    device := ← m.required "device" Device.decode
    verilog := ← m.optional "verilog" Schema.path
    edif := ← m.optional "edif" Schema.path
    sources := ← m.withDefault "sources" [] (Schema.listOf Schema.text)
    includeDirectories := ← m.withDefault "include_dirs" [] (Schema.listOf Schema.path) }

end DesignSection

namespace SignalEntry

/-- The keys with a meaning of their own, and what they hold. -/
def rules : List (String × (Datum → Except Schema.Mismatch Unit)) :=
  [("name", Schema.fits Schema.text), ("pins", Schema.fits (Schema.listOf Schema.text)),
    ("resource", Schema.fits (Schema.optional Schema.text)), ("index", Schema.fits Schema.word32),
    ("subsignal", Schema.fits (Schema.optional Schema.text)),
    ("iostandard", Schema.fits (Schema.optional Schema.text)),
    ("drive", Schema.fits (Schema.optional Schema.word32)),
    ("misc", Schema.fits (Schema.listOf Schema.text))]

/-- The entries whose keys have no meaning of their own, in ascending order of their keys. -/
def otherEntries (entries : List (String × Datum)) : List (String × Datum) :=
  (entries.filter fun e => (rules.lookup e.1).isNone).mergeSort fun a b => compare a.1 b.1 != .gt

def decode : Schema.Reader SignalEntry
  | .map entries => do
    let m : Schema.Members := ⟨entries, none, none⟩
    m.check rules
    let entry : SignalEntry := {
      name := ← m.required "name" Schema.text
      pins := ← m.required "pins" (Schema.listOf Schema.text)
      resource := ← m.optional "resource" Schema.text
      index := ← m.withDefault "index" 0 Schema.word32
      subsignal := ← m.optional "subsignal" Schema.text
      ioStandard := ← m.optional "iostandard" Schema.text
      drive := ← m.optional "drive" Schema.word32
      misc := ← m.withDefault "misc" [] (Schema.listOf Schema.text)
      others := [] }
    let others ← (otherEntries entries).mapM fun (key, d) => do
      return (key, ← Toml.writtenAlone d)
    return { entry with others := others }
  | d => .error (.wrongType d "struct SignalEntry")

/-- The attributes of a signal. -/
def attributes (s : SignalEntry) : List Attribute :=
  (s.ioStandard.map Attribute.ioStandard).toList ++ (s.drive.map Attribute.drive).toList ++
    s.misc.map Attribute.misc ++ s.others.map fun (key, value) => Attribute.other key value

/-- The constraint of a signal. -/
def constraint (s : SignalEntry) : SignalConstraint where
  signal := s.name
  pins := s.pins
  attributes := s.attributes
  resource := ⟨s.resource.getD s.name, s.index, s.subsignal⟩

end SignalEntry

namespace ClockEntry

def decode : Schema.Reader ClockEntry := fun d => do
  let m ← Schema.members .passed "struct ClockEntry" ["name", "period"] d
  m.check [("name", Schema.fits Schema.text), ("period", Schema.fits Schema.number)]
  return {
    name := ← m.required "name" Schema.text
    period := ← m.required "period" Schema.number }

/-- The command that constrains a clock. -/
def command (c : ClockEntry) : String :=
  periodCommand c.name c.period

end ClockEntry

namespace SynthesizerSection

def decode : Schema.Reader SynthesizerSection := fun d => do
  let m ← Schema.members .passed "struct MistSection" ["program", "args"] d
  m.check [("program", Schema.fits Schema.path), ("args", Schema.fits (Schema.listOf Schema.text))]
  return {
    program := ← m.required "program" Schema.path
    arguments := ← m.withDefault "args" [] (Schema.listOf Schema.text) }

end SynthesizerSection

namespace Manifest

/-- The name of a manifest's file. -/
def fileName : String := "Isebuild.toml"

def decode : Schema.Reader Manifest := fun d => do
  let m ← Schema.members .passed "struct Manifest"
    ["design", "signal", "clock", "platform_commands", "primitive", "mist"] d
  m.check [("design", Schema.fits DesignSection.decode),
    ("signal", Schema.fits (Schema.listOf SignalEntry.decode)),
    ("clock", Schema.fits (Schema.listOf ClockEntry.decode)),
    ("platform_commands", Schema.fits (Schema.listOf Schema.text)),
    ("primitive", Schema.fits (Schema.listOf Primitive.decode)),
    ("mist", Schema.fits (Schema.optional SynthesizerSection.decode))]
  return {
    design := ← m.required "design" DesignSection.decode
    signals := ← m.withDefault "signal" [] (Schema.listOf SignalEntry.decode)
    clocks := ← m.withDefault "clock" [] (Schema.listOf ClockEntry.decode)
    commands := ← m.withDefault "platform_commands" [] (Schema.listOf Schema.text)
    primitives := ← m.withDefault "primitive" [] (Schema.listOf Primitive.decode)
    synthesizer := ← m.withDefault "mist" none (Schema.optional SynthesizerSection.decode) }

/-- What is wrong with a manifest that fits: every signal has a pin, and there is a text of the
design. -/
def fault? (m : Manifest) : Option Cause :=
  match m.signals.find? fun s => s.pins.isEmpty with
  | some s => some (.noPins s.name)
  | none => if m.design.verilog.isNone && m.design.edif.isNone then some .noArtifact else none

/-- The manifest that a text writes. -/
def parse (p : Path) (text : String) : Except Failure Manifest :=
  match Toml.parse text with
  | none => .error ⟨[.parsingManifest p], .notToml⟩
  | some d => match decode d with
    | .error e => .error ⟨[.parsingManifest p], Cause.ofMismatch d e⟩
    | .ok m => match m.fault? with
      | some cause => .error (Failure.of cause)
      | none => .ok m

/-- The constraints of the signals. -/
def constraints (m : Manifest) : List SignalConstraint :=
  m.signals.map SignalEntry.constraint

/-- The commands for the clocks, and the other ones after them. -/
def platformCommands (m : Manifest) : List String :=
  m.clocks.map ClockEntry.command ++ m.commands

end Manifest

namespace View

/-- Reads and checks the manifest in a file. -/
def loadManifest (v : View) (p : Path) : Except Failure Manifest := do
  Manifest.parse p (← v.readText p)

/-- The manifest in a directory or in the nearest one above it. -/
def findManifest (v : View) (start : Path) : Except Failure Path :=
  match (start.ancestors.map fun d => d.child Manifest.fileName).find? v.isFile with
  | some p => .ok p
  | none => .error (Failure.of (.noManifest start))

end View

/-- A design that a manifest describes, and the directory below which its paths are read. -/
structure PrecompiledDesign where
  manifest : Manifest
  root : Path

namespace PrecompiledDesign

/-- The design that the manifest in a file describes. -/
def load (v : View) (p : Path) : Except Failure PrecompiledDesign := do
  return ⟨← v.loadManifest p, p.parent?.getD ⟨""⟩⟩

/-- The further sources, with their languages. Files in no known language are left out. -/
def extraSources (d : PrecompiledDesign) (v : View) : Except Failure (List SourceFile) := do
  let files ← v.findFiles d.root d.manifest.design.sources
  return files.filterMap fun p =>
    (Language.ofExtension? (p.extension?.getD "")).map fun language => ⟨p, language⟩

def includeDirectories (d : PrecompiledDesign) : List Path :=
  d.manifest.design.includeDirectories.map (Path.absolutize d.root)

/-- The specialized synthesizer, if the manifest has one. -/
def synthesizer? (d : PrecompiledDesign) : Option Synthesizer :=
  d.manifest.synthesizer.map fun s => .program s.program s.arguments

/-- A text with the constraints of the manifest. -/
def generated (d : PrecompiledDesign) (text : String) : Generated where
  text := text
  signals := d.manifest.constraints
  commands := d.manifest.platformCommands

/-- The items that primitives are replaced by. -/
def items (table : LoweringTable) (primitives : List Primitive) : String :=
  String.join (primitives.map fun p => (table.lower p).verilog)

/-- The Verilog text with the primitives in its top module. -/
def verilog (d : PrecompiledDesign) (table : LoweringTable) (v : View) :
    Except Failure Generated := do
  match d.manifest.design.verilog with
  | none => .error (Failure.of .noVerilog)
  | some file =>
    let p := Path.absolutize d.root file
    let text ← v.readText p
    if d.manifest.primitives.isEmpty then return d.generated text
    match Verilog.splice? (items table d.manifest.primitives) text with
    | some spliced => return d.generated spliced
    | none => .error (Failure.of (.noTopModule p))

/-- The netlist. It is the same for every target. -/
def netlist (d : PrecompiledDesign) (_target : NetlistTarget) (v : View) :
    Except Failure Generated := do
  match d.manifest.design.edif with
  | none => .error (Failure.of .noEdif)
  | some file => return d.generated (← v.readText (Path.absolutize d.root file))

/-- The design for a build. -/
def generator (d : PrecompiledDesign) : Generator where
  verilog := d.verilog
  netlist := d.netlist
  ioSignals := d.manifest.signals.map SignalEntry.name

end PrecompiledDesign

end FpgaFlow
