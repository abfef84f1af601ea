import FpgaFlow.Proofs.Command.Arguments
import FpgaFlow.Proofs.Command.Plan

/-!
# Where the settings of a build come from

A build command has layers (`Layers`): what is given on its command line, the
environment, the configuration of the project and that of the user.  A setting is what
the highest layer says that says anything (`highest`).

**Main statement** `settled_of_plan`: so it is with the mode, the directory, the name,
the directory of the installations, the two switches and the six options of the tools.
A path of the command line or the environment is read below the working directory, and
any other one below the directory of the manifest.
-/

namespace FpgaFlow

/-- What a file counts for as a layer. -/
inductive View.Layer (v : View) (p : Path) : Config → Prop
  | loaded {c : Config} : v.loadConfig p = .ok c → Layer v p c
  | unloadable {f : Failure} : v.loadConfig p = .error f → Layer v p .empty

theorem View.layer_configLayer (v : View) (p : Path) : v.Layer p (v.configLayer p) := by
  cases h : v.loadConfig p with
  | ok c =>
    rw [configLayer, h]
    exact .loaded h
  | error f =>
    rw [configLayer, h]
    exact .unloadable h

namespace Command

/-- What the highest layer says that says anything, and else `standard`. -/
def highest {α : Type} (layers : List (Option α)) (standard : α) : α :=
  (layers.findSome? id).getD standard

/-- What a flag says about the switch that it turns off. -/
def turnedOff (given : Given) (flag : String) : Option Bool :=
  if has given flag then some false else none

/-- What the settings of a build can come from, and what paths are read below. -/
structure Layers where
  given : Given
  environment : Option String
  project : Config
  user : Config
  workingDirectory : Path
  root : Path

/-- The manifest that a command line names or that is found from the working directory. -/
def manifestOf (given : Given) (h : Host) : Except Failure Path :=
  match path? given "manifest-path" with
  | some p => .ok (Path.absolutize h.workingDirectory p)
  | none => h.findManifest h.workingDirectory

/-- The layers that there are for a command line on a host. -/
structure Layers.Of (arguments : List String) (h : Host) (l : Layers) : Prop where
  given : ∃ rest, commandWords arguments = "build" :: rest ∧
    readFrom buildRules none [] rest = .ok l.given
  environment : l.environment = h.environment.lookup "XILINX_ISE_PATH"
  workingDirectory : l.workingDirectory = h.workingDirectory
  root : ∃ m, manifestOf l.given h = .ok m ∧ m.parent? = some l.root
  project : h.Layer (Config.projectFile l.root) l.project
  user : match h.valueOf? "HOME" with
    | some home => h.Layer (Config.userFile ⟨home⟩) l.user
    | none => l.user = .empty

namespace Layers

variable (l : Layers)

/-- A path of the command line or the environment. -/
def called (text : String) : Path :=
  Path.absolutize l.workingDirectory ⟨text⟩

/-- A path of a configuration. -/
def configured (p : Path) : Path :=
  Path.absolutize l.root p

/-- A setting that only configurations have. -/
def merged {α : Type} (setting : Config → Option α) (standard : α) : α :=
  highest [setting l.project, setting l.user] standard

/-- Every setting is that of the highest layer. -/
structure Settles (arguments : List String) (o : Build.Options) : Prop where
  mode : highest [(l.given.lookup "mode").map Mode.parse, l.project.build.mode.map Mode.parse,
    l.user.build.mode.map Mode.parse] (.ok .xst) = .ok o.mode
  directory : o.directory = highest [(l.given.lookup "build-dir").map l.called,
    l.project.build.directory.map l.configured, l.user.build.directory.map l.configured]
    (l.configured ⟨"build"⟩)
  name : o.name =
    highest [l.given.lookup "build-name", l.project.build.name, l.user.build.name] "top"
  installRoot : o.installRoot = highest [(l.given.lookup "ise-path").map l.called,
    l.environment.map l.called, l.project.toolchain.installRoot.map l.configured,
    l.user.toolchain.installRoot.map l.configured] defaultInstallRoot
  source : o.source = highest [turnedOff l.given "no-source", l.project.toolchain.source,
    l.user.toolchain.source] true
  run : o.run =
    highest [turnedOff l.given "no-run", l.project.build.run, l.user.build.run] true
  source_iff : o.source = true ↔ "--no-source" ∉ (commandWords arguments).tail ∧
    l.merged (fun c => c.toolchain.source) true = true
  run_iff : o.run = true ↔ "--no-run" ∉ (commandWords arguments).tail ∧
    l.merged (fun c => c.build.run) true = true
  xst : o.tools.xst = l.merged (fun c => c.options.xst)
    "-ifmt MIXED\n-opt_mode SPEED\n-register_balancing yes"
  ngdbuild : o.tools.ngdbuild = l.merged (fun c => c.options.ngdbuild) ""
  map : o.tools.map = l.merged (fun c => c.options.map) "-ol high -w"
  par : o.tools.par = l.merged (fun c => c.options.par) "-ol high -w"
  bitgen : o.tools.bitgen = l.merged (fun c => c.options.bitgen)
    "-g LCK_cycle:6 -g Binary:Yes -w"
  commands : o.tools.commands = l.merged (fun c => c.options.commands) ""

end Layers

/-! ### Merged configurations -/

/-- The configuration of the user, which sets nothing for a user without a directory. -/
def userConfig (h : Host) : Config :=
  match h.valueOf? "HOME" with
  | some home => h.configLayer (Config.userFile ⟨home⟩)
  | none => .empty

/-- The project comes over the user, and both over a configuration that sets nothing. -/
def overlay (project user : Config) : Config :=
  (Config.empty.merge user).merge project

theorem configFor_eq (h : Host) (root : Path) :
    configFor h root = overlay (h.configLayer (Config.projectFile root)) (userConfig h) := by
  rw [configFor, userConfig]
  cases h.valueOf? "HOME" with
  | none => rfl
  | some home => rfl

section

variable {α β : Type} (a b c : Option α) (standard : α)

theorem highest_pair : highest [a, b] standard = (a <|> (b <|> none)).getD standard := by
  cases a <;> cases b <;> rfl

theorem highest_triple :
    highest [a, b, c] standard = (a <|> (b <|> (c <|> none))).getD standard := by
  cases a with
  | some x => rfl
  | none => exact highest_pair b c standard

/-- Values that are read in another way can be merged first. -/
theorem highest_map (f : α → β) :
    highest [b.map f, c.map f] (f standard) = f (highest [b, c] standard) := by
  cases b <;> cases c <;> rfl

end

theorem eq_ok_of_orFail {α : Type} {r : Except Fault α} {x : α} (h : orFail r = .ok x) :
    r = .ok x := by
  cases r with
  | ok y => exact congrArg Except.ok (Except.ok.inj h)
  | error e => cases h

/-- What is given with a flag counts over the merged configurations. -/
theorem highest_turnedOff (given : Given) (flag : String) (b c : Option Bool) :
    highest [turnedOff given flag, b, c] true =
      (!has given flag && (b <|> (c <|> none)).getD true) := by
  rw [turnedOff]
  cases has given flag with
  | true => rfl
  | false => exact highest_pair b c true

theorem highest_turnedOff_iff {flag : String} {given : Given} {rest : List String}
    (hf : NamedFlag buildRules flag) (hgiven : readFrom buildRules none [] rest = .ok given)
    (b c : Option Bool) : highest [turnedOff given flag, b, c] true = true ↔
      "--" ++ flag ∉ rest ∧ highest [b, c] true = true := by
  have hflag : has given flag = true ↔ "--" ++ flag ∈ rest := by
    rw [has_of_readFrom hf hgiven]
    simp [has]
  rw [← hflag, turnedOff]
  cases has given flag with
  | true => simp [highest]
  | false => simp [highest]

namespace Layers

section

variable {l : Layers} {arguments rest : List String} {root : Option Path} {mode : Mode}
  {design : PrecompiledDesign} {sources : List SourceFile}

theorem mode_of_chosen
    (h : chosenMode (buildArguments l.given root) (overlay l.project l.user) = .ok mode) :
    highest [(l.given.lookup "mode").map Mode.parse, l.project.build.mode.map Mode.parse,
      l.user.build.mode.map Mode.parse] (.ok .xst) = .ok mode := by
  rw [chosenMode, buildArguments] at h
  cases hgiven : l.given.lookup "mode" with
  | some text =>
    rw [hgiven] at h
    exact eq_ok_of_orFail h
  | none =>
    rw [hgiven] at h
    obtain ⟨merged, hmerged, rfl⟩ := map_eq_ok_iff.1 h
    have hmode := eq_ok_of_orFail hmerged
    have hover : (overlay l.project l.user).build.mode =
        (l.project.build.mode <|> (l.user.build.mode <|> none)) := rfl
    rw [Config.mode?, hover] at hmode
    cases hproject : l.project.build.mode with
    | some text =>
      rw [hproject] at hmode
      obtain ⟨m, hm, rfl⟩ := map_eq_ok_iff.1 hmode
      exact hm
    | none =>
      rw [hproject] at hmode
      cases huser : l.user.build.mode with
      | some text =>
        rw [huser] at hmode
        obtain ⟨m, hm, rfl⟩ := map_eq_ok_iff.1 hmode
        exact hm
      | none =>
        rw [huser] at hmode
        rw [← Except.ok.inj hmode]
        rfl

/-- A path that is given counts over those that are configured. -/
theorem highest_path (given : Option String) (b c : Option Path) (standard : Path) :
    highest [given.map l.called, b.map l.configured, c.map l.configured] (l.configured standard) =
    match given.map Path.mk with
    | some p => Path.absolutize l.workingDirectory p
    | none => l.configured ((b <|> (c <|> none)).getD standard) := by
  cases given with
  | some text => rfl
  | none =>
    rw [← highest_pair]
    exact highest_map b c standard l.configured

variable (hgiven : readFrom buildRules none [] rest = .ok l.given)
  (hroot : installRoot? l.environment l.given = .ok root)

include hroot in
theorem installRoot_of_options :
    installRoot root (overlay l.project l.user) l.workingDirectory l.root =
      highest [(l.given.lookup "ise-path").map l.called, l.environment.map l.called,
        l.project.toolchain.installRoot.map l.configured,
        l.user.toolchain.installRoot.map l.configured] defaultInstallRoot := by
  have hover : (overlay l.project l.user).toolchain.installRoot =
      (l.project.toolchain.installRoot <|> (l.user.toolchain.installRoot <|> none)) := rfl
  unfold installRoot? path? at hroot
  cases hpath : l.given.lookup "ise-path" with
  | some text =>
    rw [hpath] at hroot
    rw [← Except.ok.inj hroot]
    rfl
  | none =>
    rw [hpath] at hroot
    cases henvironment : l.environment with
    | some text =>
      rw [henvironment] at hroot
      dsimp only [Option.map_none] at hroot
      split at hroot
      next =>
        rw [← Except.ok.inj hroot]
        rfl
      next => cases hroot
    | none =>
      rw [henvironment] at hroot
      rw [← Except.ok.inj hroot]
      unfold installRoot
      rw [hover]
      cases l.project.toolchain.installRoot with
      | some p => rfl
      | none => cases l.user.toolchain.installRoot <;> rfl

/-- **Options settle every layer.** -/
theorem settles_of_options (hwords : commandWords arguments = "build" :: rest)
    (hgiven : readFrom buildRules none [] rest = .ok l.given)
    (hroot : installRoot? l.environment l.given = .ok root)
    (hmode : chosenMode (buildArguments l.given root) (overlay l.project l.user) = .ok mode) :
    l.Settles arguments (options (buildArguments l.given root) (overlay l.project l.user) mode
      l.workingDirectory l.root design sources) := by
  have hsource := highest_turnedOff l.given "no-source" l.project.toolchain.source
    l.user.toolchain.source
  have hrun := highest_turnedOff l.given "no-run" l.project.build.run l.user.build.run
  constructor
  case mode => exact mode_of_chosen hmode
  case directory => exact (highest_path (l.given.lookup "build-dir") _ _ _).symm
  case name => exact (highest_triple _ _ _ _).symm
  case installRoot => exact installRoot_of_options hroot
  case source => exact hsource.symm
  case run => exact hrun.symm
  case source_iff =>
    rw [hwords]
    exact (Bool.eq_iff_iff.1 hsource).symm.trans
      (highest_turnedOff_iff namedFlag_noSource hgiven _ _)
  case run_iff =>
    rw [hwords]
    exact (Bool.eq_iff_iff.1 hrun).symm.trans (highest_turnedOff_iff namedFlag_noRun hgiven _ _)
  case xst => exact (highest_pair _ _ _).symm
  case ngdbuild => exact (highest_pair _ _ _).symm
  case map => exact (highest_pair _ _ _).symm
  case par => exact (highest_pair _ _ _).symm
  case bitgen => exact (highest_pair _ _ _).symm
  case commands => exact (highest_pair _ _ _).symm

end

end Layers

/-! ### Commands -/

/-- The layers of a command line with the options that were given. -/
def layers (given : Given) (h : Host) (root : Path) : Layers where
  given := given
  environment := h.environment.lookup "XILINX_ISE_PATH"
  project := h.configLayer (Config.projectFile root)
  user := userConfig h
  workingDirectory := h.workingDirectory
  root := root

theorem layers_of {arguments rest : List String} {given : Given} {h : Host} {m root : Path}
    (hwords : commandWords arguments = "build" :: rest)
    (hgiven : readFrom buildRules none [] rest = .ok given) (hm : manifestOf given h = .ok m)
    (hroot : m.parent? = some root) : (layers given h root).Of arguments h where
  given := ⟨rest, hwords, hgiven⟩
  environment := rfl
  workingDirectory := rfl
  root := ⟨m, hm, hroot⟩
  project := h.layer_configLayer _
  user := by
    rw [layers, userConfig]
    cases h.valueOf? "HOME" with
    | none => rfl
    | some home => exact h.layer_configLayer _

/-- The directory of a manifest that loads is above it. -/
theorem parent_of_load {h : Host} {m : Path} {design : PrecompiledDesign}
    (hm : m.isAbsolute = true) (hload : PrecompiledDesign.load h.toView m = .ok design) :
    m.parent? = some (projectRoot h m) := by
  obtain ⟨hroot, habs, -⟩ := root_of_load hm hload
  obtain ⟨manifest, -, hdesign⟩ := bind_eq_ok_iff.1 hload
  rw [hroot]
  rw [← Except.ok.inj hdesign] at habs ⊢
  cases hparent : m.parent? with
  | some root => rfl
  | none =>
    rw [hparent] at habs
    cases habs

/-- **Each setting of a build is that of the highest layer.** -/
theorem settled_of_plan {arguments : List String} {h : Host} {a : BuildArguments} {p : Plan}
    (hparse : parse (h.environment.lookup "XILINX_ISE_PATH") arguments = .ok (.build a))
    (hplan : plan a h = .ok p) :
    ∃ l : Layers, l.Of arguments h ∧ l.Settles arguments p.options := by
  obtain ⟨rest, root, given, hwords, hgiven, hroot, rfl⟩ := parse_eq_build hparse
  obtain ⟨m, mode, design, sources, hm, hmode, hdesign, -, rfl⟩ := plan_eq_ok_iff.1 hplan
  have hparent := parent_of_load (isAbsolute_of_manifestPath hm) hdesign
  have hnamed : manifestOf given h = .ok m := by
    rw [← hm, manifestPath_eq (there_of_manifestPath hm)]
    rfl
  rw [configFor_eq] at hmode ⊢
  refine ⟨layers given h (projectRoot h m), layers_of hwords hgiven hnamed hparent, ?_⟩
  exact Layers.settles_of_options (l := layers given h (projectRoot h m)) hwords hgiven hroot hmode

/-- A project below `/p` with settings of its own, and a user with others. -/
def layeredProject : Host :=
  Host.start ⟨((FileTree.empty.plant ["p", "Isebuild.toml"] (.file (.text
    "[design]\ndevice = \"xc6slx9\"\nverilog = \"top.v\"\n") false)).plant
    ["p", ".isebuild", "config.toml"] (.file (.text
      "[build]\nbuild_name = \"blink\"\nbuild_dir = \"out\"\n") false)).plant
    ["u", ".isebuild", "config.toml"] (.file (.text
      "[build]\nbuild_name = \"top2\"\nmode = \"edif\"\n[options]\npar = \"-w\"\n") false), ["p"]⟩
    [("HOME", "/u"), ("XILINX_ISE_PATH", "ise")]

def layeredArguments : BuildArguments :=
  ⟨none, none, some ⟨"here"⟩, none, some ⟨"ise"⟩, true, false, .human⟩

def layeredBuild : List String := ["build", "--no-source", "--build-dir", "here"]

/-- The name is the project's, the mode is the user's, and the directory is that of the command
line. -/
theorem settled_layeredProject : ∃ p : Plan, plan layeredArguments layeredProject = .ok p ∧
    (p.options.name, p.options.mode, p.options.directory) = ("blink", .edif, ⟨"/p/here"⟩) ∧
    ∃ l : Layers, l.Of layeredBuild layeredProject ∧ l.Settles layeredBuild p.options := by
  have hvalues : (plan layeredArguments layeredProject).toOption.map (fun p =>
      (p.options.name, p.options.mode, p.options.directory)) =
      some ("blink", .edif, ⟨"/p/here"⟩) := by
    decide +kernel
  have hparse : parse (layeredProject.environment.lookup "XILINX_ISE_PATH") layeredBuild =
      .ok (.build layeredArguments) := by
    decide +kernel
  cases hplan : plan layeredArguments layeredProject with
  | error f =>
    rw [hplan] at hvalues
    cases hvalues
  | ok p =>
    rw [hplan] at hvalues
    exact ⟨p, rfl, Option.some.inj hvalues, settled_of_plan hparse hplan⟩

end Command

end FpgaFlow
