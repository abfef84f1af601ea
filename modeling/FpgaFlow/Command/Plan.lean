import FpgaFlow.Build.Run
import FpgaFlow.Command.Arguments
import FpgaFlow.Config
import FpgaFlow.Manifest

/-!
# What a build command builds

Before a build begins, everything that it depends on is read: the manifest, the configuration of the
user and of the project, and the further sources. Each setting comes from the command line, else
from the project's configuration, else from the user's, else it has its default. Paths of the
command line are read below the working directory, all others below the directory of the manifest.

`Command.plan` only looks. It fails at the first thing that is wrong: the mode of the command line,
then a working directory that is gone, then a manifest that is not found, then the mode of the
configuration, then what is wrong with the manifest and its sources.
-/

namespace FpgaFlow.Command

/-- A design with the options to build it with. -/
structure Plan where
  design : PrecompiledDesign
  options : Build.Options

/-- The configuration for the project in a directory. -/
def configFor (h : Host) (root : Path) : Config :=
  h.configLayers (((h.valueOf? "HOME").map fun home => Config.userFile ⟨home⟩).toList ++
    [Config.projectFile root])

/-- The directory of the installations, from the command line, the configuration or the default. -/
def installRoot (argument : Option Path) (config : Config) (workingDirectory root : Path) : Path :=
  match argument, config.toolchain.installRoot with
  | some p, _ => Path.absolutize workingDirectory p
  | none, some p => Path.absolutize root p
  | none, none => defaultInstallRoot

/-- A fault as a failure. -/
def orFail {α : Type} (r : Except Fault α) : Except Failure α :=
  r.mapError fun fault => Failure.of (.fault fault)

/-- The working directory of a command. -/
def located (h : Host) : Except Failure Path :=
  h.currentDirectory.mapError fun e => Failure.of (.io e)

/-- The manifest that a build is about. -/
def manifestPath (a : BuildArguments) (h : Host) : Except Failure Path := do
  let workingDirectory ← located h
  match a.manifest with
  | some p => .ok (Path.absolutize workingDirectory p)
  | none => h.findManifest workingDirectory

/-- The directory of a manifest, or the working directory for a manifest without one. -/
def projectRoot (h : Host) (manifest : Path) : Path :=
  manifest.parent?.getD h.workingDirectory

/-- The options that arguments and configuration give. -/
def options (a : BuildArguments) (config : Config) (mode : Mode) (workingDirectory root : Path)
    (design : PrecompiledDesign) (sources : List SourceFile) : Build.Options :=
  let standard := Build.Options.default design.manifest.design.device
  { standard with
    directory := match a.directory with
      | some p => Path.absolutize workingDirectory p
      | none => Path.absolutize root (config.build.directory.getD standard.directory)
    name := (a.name <|> config.build.name).getD standard.name
    installRoot := installRoot a.installRoot config workingDirectory root
    source := !a.noSource && config.toolchain.source.getD true
    run := !a.noRun && config.build.run.getD true
    mode := mode
    tools := config.toolOptions
    sources := sources
    includes := design.includeDirectories }

/-- What a build command builds. -/
def plan (a : BuildArguments) (h : Host) : Except Failure Plan := do
  let argumentMode ← match a.mode with
    | some text => (orFail (Mode.parse text)).map some
    | none => .ok none
  let manifest ← manifestPath a h
  let root := projectRoot h manifest
  let config := configFor h root
  let mode ← match argumentMode with
    | some mode => .ok mode
    | none => (orFail config.mode?).map fun mode => mode.getD .xst
  let design ← PrecompiledDesign.load h.toView manifest
  let sources ← design.extraSources h.toView
  return ⟨design, options a config mode h.workingDirectory root design sources⟩

end FpgaFlow.Command
