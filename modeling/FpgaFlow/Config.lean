import FpgaFlow.Failure
import FpgaFlow.Mode
import FpgaFlow.Toml.Document
import FpgaFlow.ToolOptions

/-!
# Configuration

A configuration sets some of twelve settings: where the tools are, how to build, and the options of
the tools. Configurations are layers: one layer merged over another takes precedence in every
setting that it sets (`Config.merge`). The user's configuration lies below that of the project. A
layer whose file is missing or does not load counts as one that sets nothing.
-/

namespace FpgaFlow

/-- Where the tools are, and whether to set up their environment. -/
structure ToolchainSettings where
  installRoot : Option Path := none
  source : Option Bool := none
  deriving DecidableEq, Repr

/-- How to build. -/
structure BuildSettings where
  directory : Option Path := none
  name : Option String := none
  mode : Option String := none
  run : Option Bool := none
  deriving DecidableEq, Repr

/-- Options of the tools. -/
structure OptionSettings where
  xst : Option String := none
  ngdbuild : Option String := none
  map : Option String := none
  par : Option String := none
  bitgen : Option String := none
  commands : Option String := none
  deriving DecidableEq, Repr

/-- A configuration. -/
structure Config where
  toolchain : ToolchainSettings := {}
  build : BuildSettings := {}
  options : OptionSettings := {}
  deriving DecidableEq, Repr

namespace ToolchainSettings

def encode (s : ToolchainSettings) : Datum :=
  .map [("ise_path", Datum.ofOption (fun p => .text p.text) s.installRoot),
    ("source", Datum.ofOption .bool s.source)]

def decode (surplus : Schema.Surplus) : Schema.Reader ToolchainSettings := fun d => do
  let m ← Schema.members surplus "struct ToolchainSettings" ["ise_path", "source"] d
  m.check [("ise_path", Schema.fits (Schema.optional Schema.path)),
    ("source", Schema.fits (Schema.optional Schema.bool))]
  return {
    installRoot := ← m.withDefault "ise_path" none (Schema.optional Schema.path)
    source := ← m.withDefault "source" none (Schema.optional Schema.bool) }

/-- The settings with those that `upper` sets put over them. -/
def merge (s upper : ToolchainSettings) : ToolchainSettings where
  installRoot := upper.installRoot <|> s.installRoot
  source := upper.source <|> s.source

end ToolchainSettings

namespace BuildSettings

def encode (s : BuildSettings) : Datum :=
  .map [("build_dir", Datum.ofOption (fun p => .text p.text) s.directory),
    ("build_name", Datum.ofOption .text s.name), ("mode", Datum.ofOption .text s.mode),
    ("run", Datum.ofOption .bool s.run)]

def decode (surplus : Schema.Surplus) : Schema.Reader BuildSettings := fun d => do
  let m ← Schema.members surplus "struct BuildConfig" ["build_dir", "build_name", "mode", "run"] d
  m.check [("build_dir", Schema.fits (Schema.optional Schema.path)),
    ("build_name", Schema.fits (Schema.optional Schema.text)),
    ("mode", Schema.fits (Schema.optional Schema.text)),
    ("run", Schema.fits (Schema.optional Schema.bool))]
  return {
    directory := ← m.withDefault "build_dir" none (Schema.optional Schema.path)
    name := ← m.withDefault "build_name" none (Schema.optional Schema.text)
    mode := ← m.withDefault "mode" none (Schema.optional Schema.text)
    run := ← m.withDefault "run" none (Schema.optional Schema.bool) }

/-- The settings with those that `upper` sets put over them. -/
def merge (s upper : BuildSettings) : BuildSettings where
  directory := upper.directory <|> s.directory
  name := upper.name <|> s.name
  mode := upper.mode <|> s.mode
  run := upper.run <|> s.run

end BuildSettings

namespace OptionSettings

def encode (s : OptionSettings) : Datum :=
  .map [("xst", Datum.ofOption .text s.xst), ("ngdbuild", Datum.ofOption .text s.ngdbuild),
    ("map", Datum.ofOption .text s.map), ("par", Datum.ofOption .text s.par),
    ("bitgen", Datum.ofOption .text s.bitgen), ("commands", Datum.ofOption .text s.commands)]

def decode (surplus : Schema.Surplus) : Schema.Reader OptionSettings := fun d => do
  let setting := Schema.optional Schema.text
  let m ← Schema.members surplus "struct StageOptionsConfig"
    ["xst", "ngdbuild", "map", "par", "bitgen", "commands"] d
  m.check [("xst", Schema.fits setting), ("ngdbuild", Schema.fits setting),
    ("map", Schema.fits setting), ("par", Schema.fits setting),
    ("bitgen", Schema.fits setting), ("commands", Schema.fits setting)]
  return {
    xst := ← m.withDefault "xst" none setting
    ngdbuild := ← m.withDefault "ngdbuild" none setting
    map := ← m.withDefault "map" none setting
    par := ← m.withDefault "par" none setting
    bitgen := ← m.withDefault "bitgen" none setting
    commands := ← m.withDefault "commands" none setting }

/-- The settings with those that `upper` sets put over them. -/
def merge (s upper : OptionSettings) : OptionSettings where
  xst := upper.xst <|> s.xst
  ngdbuild := upper.ngdbuild <|> s.ngdbuild
  map := upper.map <|> s.map
  par := upper.par <|> s.par
  bitgen := upper.bitgen <|> s.bitgen
  commands := upper.commands <|> s.commands

end OptionSettings

namespace Config

/-- The configuration that sets nothing. -/
def empty : Config := {}

def encode (c : Config) : Datum :=
  .map [("toolchain", c.toolchain.encode), ("build", c.build.encode),
    ("options", c.options.encode)]

def decode (surplus : Schema.Surplus) : Schema.Reader Config := fun d => do
  let m ← Schema.members surplus "struct Config" ["toolchain", "build", "options"] d
  m.check [("toolchain", Schema.fits (ToolchainSettings.decode surplus)),
    ("build", Schema.fits (BuildSettings.decode surplus)),
    ("options", Schema.fits (OptionSettings.decode surplus))]
  return {
    toolchain := ← m.withDefault "toolchain" {} (ToolchainSettings.decode surplus)
    build := ← m.withDefault "build" {} (BuildSettings.decode surplus)
    options := ← m.withDefault "options" {} (OptionSettings.decode surplus) }

/-- The configuration with the settings of `upper` put over its own. -/
def merge (c upper : Config) : Config where
  toolchain := c.toolchain.merge upper.toolchain
  build := c.build.merge upper.build
  options := c.options.merge upper.options

/-- The mode that is set, if one is. A text that names no mode is a fault. -/
def mode? (c : Config) : Except Fault (Option Mode) :=
  match c.build.mode with
  | some text => (Mode.parse text).map some
  | none => .ok none

/-- The options of the tools, those that are not set at their defaults. -/
def toolOptions (c : Config) : ToolOptions where
  xst := c.options.xst.getD ({} : ToolOptions).xst
  ngdbuild := c.options.ngdbuild.getD ({} : ToolOptions).ngdbuild
  map := c.options.map.getD ({} : ToolOptions).map
  par := c.options.par.getD ({} : ToolOptions).par
  bitgen := c.options.bitgen.getD ({} : ToolOptions).bitgen
  commands := c.options.commands.getD ({} : ToolOptions).commands

/-- The configuration that a text writes. -/
def parse (p : Path) (text : String) : Except Failure Config :=
  match Toml.parse text with
  | none => .error ⟨[.parsingConfig p], .notToml⟩
  | some d => (decode .passed d).mapError fun e => ⟨[.parsingConfig p], Cause.ofMismatch d e⟩

/-- Where the configuration of the project in a directory is. -/
def projectFile (root : Path) : Path :=
  (root.child ".isebuild").child "config.toml"

/-- Where the configuration of a user is, below the user's own directory. -/
def userFile (home : Path) : Path :=
  (home.child ".isebuild").child "config.toml"

end Config

namespace View

/-- The configuration in a file. -/
def loadConfig (v : View) (p : Path) : Except Failure Config := do
  match v.read p with
  | .ok text => Config.parse p text
  | .error e => .error ⟨[.readingConfig p], .io e⟩

/-- The layer in a file. -/
def configLayer (v : View) (p : Path) : Config :=
  match v.loadConfig p with
  | .ok c => c
  | .error _ => .empty

/-- The layers in a list of files, each one over those before it. -/
def configLayers (v : View) (ps : List Path) : Config :=
  ps.foldl (fun c p => c.merge (v.configLayer p)) .empty

end View

end FpgaFlow
