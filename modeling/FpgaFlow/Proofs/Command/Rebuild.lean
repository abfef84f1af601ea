import FpgaFlow.Command.Run
import FpgaFlow.Proofs.Build.Repeat
import FpgaFlow.Proofs.Command.Plan

/-!
# Running a build command again

A command that only generates can see what it wrote itself when it is run again:
through the patterns for further sources, and through directories that are there only
now.

**Main statement** `rebuild_idempotent`: apart from that the second run gives the same
answer as the first one and leaves the tree as it is.
-/

namespace FpgaFlow

/-- The files of a design. -/
def PrecompiledDesign.artifacts (d : PrecompiledDesign) : List Path :=
  (d.manifest.design.verilog.toList ++ d.manifest.design.edif.toList).map (Path.absolutize d.root)

namespace Command

/-- The design of a manifest answers as before where its files are not written. -/
theorem answer_of_overwrites {d : PrecompiledDesign} {o : Build.Options} {e : Build.Equipment}
    {files : List Path} {v w : View} (hroot : d.root.isAbsolute = true)
    (hover : View.Overwrites files v w) (hapart : ∀ q ∈ d.artifacts, ∀ f ∈ files, w.Distinct q f)
    {a : Generated} (h : Build.answer d.generator o e v = .ok a) :
    Build.answer d.generator o e w = .ok a := by
  have hread {file : Path} (hfile : Path.absolutize d.root file ∈ d.artifacts) {text : String}
      (hv : v.readText (Path.absolutize d.root file) = .ok text) :
      w.readText (Path.absolutize d.root file) = .ok text := by
    have habs := Path.isAbsolute_absolutize hroot file
    have hstart : w.start (Path.absolutize d.root file) =
        v.start (Path.absolutize d.root file) := by
      rw [View.start_eq_nil habs, View.start_eq_nil habs]
    rw [View.readText_eq_ok_iff] at hv ⊢
    exact hover.read hstart (hapart _ hfile) hv
  rw [Build.answer] at h ⊢
  split at h
  next hverilog =>
    rw [if_pos hverilog]
    change d.verilog e.lowering v = .ok a at h
    change d.verilog e.lowering w = .ok a
    rw [PrecompiledDesign.verilog] at h ⊢
    cases hfile : d.manifest.design.verilog with
    | none =>
      rw [hfile] at h
      cases h
    | some file =>
      simp only [hfile] at h
      obtain ⟨text, htext, hrest⟩ := bind_eq_ok_iff.1 h
      refine bind_eq_ok_iff.2 ⟨text, hread ?_ htext, hrest⟩
      exact List.mem_map_of_mem (by simp [hfile])
  next hverilog =>
    rw [if_neg hverilog]
    change d.netlist (.xilinx o.device) v = .ok a at h
    change d.netlist (.xilinx o.device) w = .ok a
    rw [PrecompiledDesign.netlist] at h ⊢
    cases hfile : d.manifest.design.edif with
    | none =>
      rw [hfile] at h
      cases h
    | some file =>
      simp only [hfile] at h
      obtain ⟨text, htext, hrest⟩ := bind_eq_ok_iff.1 h
      refine bind_eq_ok_iff.2 ⟨text, hread ?_ htext, hrest⟩
      exact List.mem_map_of_mem (by simp [hfile])

/-- A command that only generates, for `xst` or from a finished netlist, and that succeeds. -/
structure Generates (tools : Tools) (arguments : List String) (h : Host) (a : BuildArguments)
    (m : Path) (p : Plan) : Prop where
  parses : parse (h.environment.lookup "XILINX_ISE_PATH") arguments = .ok (.build a)
  manifest : manifestPath a h = .ok m
  plans : plan a h = .ok p
  only : p.options.OnlyGenerates
  succeeds : (run tools arguments h).1.code = 0

/-- What a command read is not among the files that it wrote, the configuration of the user is not
found only now, and for `xst` no further source is. -/
structure Undisturbed (h again : Host) (m : Path) (p : Plan) : Prop where
  inputs : ∀ q ∈ m :: p.design.artifacts, ∀ f ∈ (p.options.within h).written, again.Distinct q f
  config : ∀ home, h.valueOf? "HOME" = some home →
    again.isFile (Config.userFile ⟨home⟩) = true → h.isFile (Config.userFile ⟨home⟩) = true
  sources : p.options.mode = .xst → ∀ sources, p.design.extraSources again.toView = .ok sources →
    ∀ s ∈ sources, h.isFile s.path = true

variable {tools : Tools} {arguments : List String} {h : Host} {a : BuildArguments} {m : Path}
  {p : Plan}

/-- A command that succeeds is a build that comes to its end. -/
theorem Generates.build (hg : Generates tools arguments h a m p) :
    ∃ r progress, Build.run p.design.generator p.options (equipment tools p.design) h =
        (.ok r, progress) ∧
      run tools arguments h = (finished a.format h.workingDirectory p.options.name r,
        progress.host) := by
  have hsucceeds := hg.succeeds
  have hrun : run tools arguments h = runBuild tools a h := by
    rw [run, hg.parses]
  rw [hrun, runBuild, hg.plans] at hsucceeds ⊢
  dsimp only at hsucceeds ⊢
  cases hbuild : Build.run p.design.generator p.options (equipment tools p.design) h with
  | mk result progress =>
    rw [hbuild] at hsucceeds
    cases result with
    | ok r => exact ⟨r, progress, rfl, rfl⟩
    | error f => exact absurd hsucceeds (exitCode_ne_zero f)

/-- What such a build leaves is a later host. -/
theorem Generates.later (hg : Generates tools arguments h a m p) {r : Build.Report}
    {progress : Build.Progress}
    (hbuild : Build.run p.design.generator p.options (equipment tools p.design) h =
      (.ok r, progress)) : Later (p.options.within h).written h progress.host where
  overwrites := Build.overwrites_of_run hbuild hg.only
  directory := Build.directory_of_run hbuild hg.only
  environment := Build.environment_of_run hbuild
  there := Build.there_of_run hbuild
  endings := by
    intro f hf l hl
    obtain ⟨ext, hext, hending⟩ := Build.ending_of_mem_written p.design.generator
      (equipment tools p.design) progress hf hl
    rw [hending]
    intro htoml
    rw [String.toList_inj.1 (Option.some.inj htoml)] at hext
    exact Build.toml_notMem_endings _ _ hext

theorem Generates.isAbsolute_root (hg : Generates tools arguments h a m p) :
    p.design.root.isAbsolute = true := by
  obtain ⟨m', mode, design, sources, hm, -, hdesign, -, hp⟩ := plan_eq_ok_iff.1 hg.plans
  rw [hp]
  exact (root_of_load (isAbsolute_of_manifestPath hm) hdesign).2.1

/-! ### Projects -/

/-- A project for `xst` in the directory `/p`. -/
def projectTree (sources : String) : FileTree :=
  ((FileTree.empty.plant ["p", "Isebuild.toml"] (.file (.text
    ("[design]\ndevice = \"xc6slx9\"\nverilog = \"top.v\"\nsources = [" ++ sources ++ "]\n"))
      false)).plant ["p", "top.v"] (.file (.text "module top;\nendmodule\n") false)).plant
    ["p", "src", "a.v"] (.file (.text "") false)

def jsonBuild : List String := ["build", "--no-run", "--message-format", "json"]

def jsonArguments : BuildArguments := ⟨none, none, none, none, none, false, true, .json⟩

def projectManifest : Path := ⟨"/p/Isebuild.toml"⟩

/-- The files that the first build of a project writes. -/
def projectFiles : List Path :=
  [⟨"/p/build/top.v"⟩, ⟨"/p/build/top.prj"⟩, ⟨"/p/build/top.xst"⟩, ⟨"/p/build/top.ucf"⟩]

/-- A project with sources of its own. -/
def plainProject : Host :=
  Host.start ⟨projectTree "\"src/*.v\"", ["p"]⟩ []

/-- A project with a pattern that finds what its build writes. -/
def selfReading : Host :=
  Host.start ⟨projectTree "\"build/*.v\"", ["p"]⟩ []

/-- A user whose own directory is found only when the project has been built. -/
def lateUser : Host :=
  Host.start ⟨(projectTree "").plant ["u", ".isebuild", "config.toml"]
    (.file (.text "[build]\nbuild_name = \"late\"\n") false), ["p"]⟩
    [("HOME", "/p/build/../../u")]

theorem distinct_of_ne {v : View} {p q : Path}
    (h : (v.resolve p).toOption ≠ (v.resolve q).toOption) : v.Distinct p q := by
  intro l hp hq
  exact h (by rw [hp, hq])

instance (o : Build.Options) : Decidable o.OnlyGenerates :=
  inferInstanceAs (Decidable (_ ∧ _))

/-- What is asked of a plan can be computed. -/
theorem exists_generates {h : Host} {f : Plan → Bool}
    (henvironment : h.environment.lookup "XILINX_ISE_PATH" = none)
    (hmanifest : (manifestPath jsonArguments h).toOption = some projectManifest)
    (hplan : ((plan jsonArguments h).toOption.map fun p =>
      decide p.options.OnlyGenerates && f p) = some true)
    (hcode : (run Build.quiet jsonBuild h).1.code = 0) :
    ∃ p, Generates Build.quiet jsonBuild h jsonArguments projectManifest p ∧ f p = true := by
  cases hp : plan jsonArguments h with
  | error e =>
    rw [hp] at hplan
    cases hplan
  | ok p =>
    rw [hp] at hplan
    obtain ⟨honly, hf⟩ := Bool.and_eq_true_iff.1 (Option.some.inj hplan)
    refine ⟨p, ⟨?_, eq_ok_of_toOption hmanifest, hp, of_decide_eq_true honly, hcode⟩, hf⟩
    rw [henvironment]
    decide +kernel

/-! ### Running a command again -/

/-- **A command that only generates can be run again**: it gives the same answer and leaves the tree
as the first run left it, where nothing that it reads was disturbed by the first run. -/
theorem rebuild_idempotent (hg : Generates tools arguments h a m p)
    (hu : Undisturbed h (run tools arguments h).2 m p) :
    (run tools arguments (run tools arguments h).2).1 = (run tools arguments h).1 ∧
      (run tools arguments (run tools arguments h).2).2.tree = (run tools arguments h).2.tree := by
  obtain ⟨r, progress, hbuild, hrun⟩ := hg.build
  rw [hrun] at hu ⊢
  have hlater := hg.later hbuild
  have hfiles := Build.isAbsolute_of_mem_written (p.options.isAbsolute_within h)
  obtain ⟨sources, hplan, hsources⟩ := hlater.plan_again hg.manifest hg.plans
    (hu.inputs m List.mem_cons_self) hu.config hu.sources
  have hapart : ∀ w : View, w.tree = progress.host.tree → ∀ q ∈ p.design.artifacts,
      ∀ f ∈ (p.options.within h).written, w.Distinct q f := by
    intro w hw q hq f hf
    obtain ⟨file, -, rfl⟩ := List.mem_map.1 hq
    exact (hu.inputs _ (List.mem_cons_of_mem m hq) f hf).congr
      (Path.isAbsolute_absolutize hg.isAbsolute_root file) (hfiles f hf) hw
  obtain ⟨progress', hbuild', htree⟩ := Build.run_again hbuild hg.only rfl hlater.directory
    hsources fun v w _ hw hover a ha =>
      answer_of_overwrites hg.isAbsolute_root hover (hapart w hw) ha
  have hparses : parse (progress.host.environment.lookup "XILINX_ISE_PATH") arguments =
      .ok (.build a) := by
    rw [hlater.environment]
    exact hg.parses
  have hagain : run tools arguments progress.host =
      (finished a.format h.workingDirectory p.options.name r, progress'.host) := by
    rw [run, hparses]
    dsimp only
    rw [runBuild, hplan]
    dsimp only
    rw [hbuild', hlater.workingDirectory_eq]
  rw [hagain]
  exact ⟨rfl, htree⟩

/-- A project with a pattern that stays clear of its build is not disturbed. -/
theorem rebuild_plainProject : ∃ p,
    Generates Build.quiet jsonBuild plainProject jsonArguments projectManifest p ∧
    Undisturbed plainProject (run Build.quiet jsonBuild plainProject).2 projectManifest p ∧
    (run Build.quiet jsonBuild (run Build.quiet jsonBuild plainProject).2).1 =
      (run Build.quiet jsonBuild plainProject).1 := by
  obtain ⟨p, hg, hf⟩ := exists_generates (h := plainProject)
    (f := fun p => projectManifest :: p.design.artifacts = [projectManifest, ⟨"/p/top.v"⟩] ∧
      (p.options.within plainProject).written = projectFiles ∧
      p.design.root = ⟨"/p"⟩ ∧ p.design.manifest.design.sources = ["src/*.v"])
    rfl (by decide +kernel) (by decide +kernel) (by decide +kernel)
  obtain ⟨hreads, hwrites, hroot, hpatterns⟩ := of_decide_eq_true hf
  have hu : Undisturbed plainProject (run Build.quiet jsonBuild plainProject).2
      projectManifest p := by
    constructor
    case inputs =>
      rw [hreads, hwrites]
      have hne : ∀ q ∈ [projectManifest, ⟨"/p/top.v"⟩],
          ∀ f ∈ projectFiles, ((run Build.quiet jsonBuild plainProject).2.resolve q).toOption ≠
            ((run Build.quiet jsonBuild plainProject).2.resolve f).toOption := by
        decide +kernel
      exact fun q hq f hf => distinct_of_ne (hne q hq f hf)
    case config =>
      intro home hhome
      cases hhome
    case sources =>
      intro _ sources hsources
      have hfound : ((run Build.quiet jsonBuild plainProject).2.gather ⟨"/p"⟩
          ["src/*.v"]).toOption = some [⟨"/p/src/a.v"⟩] := by
        decide +kernel
      rw [PrecompiledDesign.extraSources_eq, hroot, hpatterns, eq_ok_of_toOption hfound]
        at hsources
      rw [← Except.ok.inj hsources]
      decide +kernel
  exact ⟨p, hg, hu, (rebuild_idempotent hg hu).1⟩

/-- The files that a command reads, apart from further sources. -/
def inputs (h : Host) (m : Path) (d : PrecompiledDesign) : List Path :=
  m :: d.artifacts ++ ((h.valueOf? "HOME").map fun home => Config.userFile ⟨home⟩).toList ++
    [Config.projectFile d.root]

/-- The second run of a command changes what the first one left, which wrote no file that it had
read. -/
def Disturbed (tools : Tools) (arguments : List String) (h : Host) : Prop :=
  ∃ a m p, Generates tools arguments h a m p ∧
    (∀ q ∈ inputs h m p.design, ∀ f ∈ (p.options.within h).written,
      (run tools arguments h).2.toView.Distinct q f) ∧
    (run tools arguments (run tools arguments h).2).2.tree ≠ (run tools arguments h).2.tree

theorem disturbed_of_checks {h : Host} (reads writes : List Path) (l : Location)
    (henvironment : h.environment.lookup "XILINX_ISE_PATH" = none)
    (hmanifest : (manifestPath jsonArguments h).toOption = some projectManifest)
    (hplan : ((plan jsonArguments h).toOption.map fun p => decide p.options.OnlyGenerates &&
      decide (inputs h projectManifest p.design = reads ∧
        (p.options.within h).written = writes)) = some true)
    (hcode : (run Build.quiet jsonBuild h).1.code = 0)
    (hapart : ∀ q ∈ reads, ∀ f ∈ writes, ((run Build.quiet jsonBuild h).2.resolve q).toOption ≠
      ((run Build.quiet jsonBuild h).2.resolve f).toOption)
    (hchanged : (run Build.quiet jsonBuild (run Build.quiet jsonBuild h).2).2.tree.lookup l ≠
      (run Build.quiet jsonBuild h).2.tree.lookup l) : Disturbed Build.quiet jsonBuild h := by
  obtain ⟨p, hg, hf⟩ := exists_generates henvironment hmanifest hplan hcode
  obtain ⟨hreads, hwrites⟩ := of_decide_eq_true hf
  refine ⟨_, _, p, hg, ?_, fun htree => hchanged (congrArg (FileTree.lookup · l) htree)⟩
  rw [hreads, hwrites]
  exact fun q hq f hf => distinct_of_ne (hapart q hq f hf)

/-- **A command can be disturbed by its own first run**: a pattern finds a file that was written, or
a configuration is found through a directory that was made. -/
theorem rebuild_disturbed :
    Disturbed Build.quiet jsonBuild selfReading ∧ Disturbed Build.quiet jsonBuild lateUser := by
  constructor
  · exact disturbed_of_checks
      [projectManifest, ⟨"/p/top.v"⟩, ⟨"/p/.isebuild/config.toml"⟩] projectFiles
      ["p", "build", "top.prj"] rfl (by decide +kernel) (by decide +kernel) (by decide +kernel)
      (by decide +kernel) (by decide +kernel)
  · exact disturbed_of_checks
      [projectManifest, ⟨"/p/top.v"⟩, ⟨"/p/build/../../u/.isebuild/config.toml"⟩,
        ⟨"/p/.isebuild/config.toml"⟩] projectFiles
      ["p", "build", "late.prj"] rfl (by decide +kernel) (by decide +kernel)
      (by decide +kernel) (by decide +kernel) (by decide +kernel)

end Command

end FpgaFlow
