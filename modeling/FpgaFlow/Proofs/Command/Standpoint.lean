import FpgaFlow.Command.Run
import FpgaFlow.Proofs.Build.Standpoint
import FpgaFlow.Proofs.Command.Rebuild
import FpgaFlow.Proofs.Glob.Standpoint
import FpgaFlow.Proofs.Tree.Nearest

/-!
# Build commands from another directory

A build command finds its manifest in the nearest directory above that has one, and
from there on all its paths are absolute, if none that it is given is relative.

**Main statement** `alike_of_project`: from all directories of a project such a command
gives the same answer and does the same.  It needs a manifest with a directory above it
and a user whose own directory is not relative (`not_alike`).
-/

namespace FpgaFlow

/-! ### What is read through absolute paths -/

namespace View

variable {v w : View} {p : Path}

theorem configLayer_of_tree_eq (ht : w.tree = v.tree) (hp : p.isAbsolute = true) :
    w.configLayer p = v.configLayer p := by
  rw [configLayer, configLayer, loadConfig, loadConfig, read_of_tree_eq ht hp]

theorem load_of_tree_eq (ht : w.tree = v.tree) (hp : p.isAbsolute = true) :
    PrecompiledDesign.load w p = PrecompiledDesign.load v p := by
  rw [PrecompiledDesign.load, PrecompiledDesign.load, loadManifest, loadManifest,
    readText_of_tree_eq ht hp]

theorem extraSources_of_tree_eq (ht : w.tree = v.tree) {d : PrecompiledDesign}
    (hroot : d.root.isAbsolute = true) : d.extraSources w = d.extraSources v := by
  rw [PrecompiledDesign.extraSources_eq, PrecompiledDesign.extraSources_eq,
    gather_of_tree_eq ht hroot]

theorem isAbsolute_of_extraSources {d : PrecompiledDesign} (hroot : d.root.isAbsolute = true)
    {sources : List SourceFile} (h : d.extraSources v = .ok sources) :
    ∀ s ∈ sources, s.path.isAbsolute = true := by
  rw [PrecompiledDesign.extraSources_eq] at h
  obtain ⟨found, hfound, rfl⟩ := map_eq_ok_iff.1 h
  intro s hs
  obtain ⟨q, hq, hsource⟩ := List.mem_filterMap.1 hs
  rw [PrecompiledDesign.path_of_asSource? hsource]
  have hmem : q ∈ found.filter q.same := List.mem_of_mem_head? (mem_kept.1 hq)
  exact isAbsolute_of_gather hroot hfound (List.mem_of_mem_filter hmem)

end View

namespace Command

/-- No path of the arguments is relative. -/
structure BuildArguments.Rooted (a : BuildArguments) : Prop where
  manifest : ∀ p, a.manifest = some p → p.isAbsolute = true
  directory : ∀ p, a.directory = some p → p.isAbsolute = true
  installRoot : ∀ p, a.installRoot = some p → p.isAbsolute = true

/-- Two directories with the same nearest manifest. -/
structure SameProject (t : FileTree) (d₁ d₂ root : Location) : Prop where
  there : t.lookup d₁ = some .directory ∧ t.lookup d₂ = some .directory
  nearest : t.Nearest d₁ root ∧ t.Nearest d₂ root

instance (t : FileTree) (d₁ d₂ root : Location) : Decidable (SameProject t d₁ d₂ root) :=
  decidable_of_iff ((t.lookup d₁ = some .directory ∧ t.lookup d₂ = some .directory) ∧
    t.Nearest d₁ root ∧ t.Nearest d₂ root) ⟨fun h => ⟨h.1, h.2⟩, fun h => ⟨h.there, h.nearest⟩⟩

/-- What two runs of a command have in common. Only a build that succeeds and tells so in words
tells it with paths from the working directory. -/
structure Alike (json : Prop) (r₁ r₂ : Answer × Host) : Prop where
  code : r₁.1.code = r₂.1.code
  output : r₁.1.output = r₂.1.output
  errors : r₁.1.code ≠ 0 ∨ json → r₁.1.errors = r₂.1.errors
  journal : r₁.2.journal = r₂.2.journal
  tree : r₁.2.tree = r₂.2.tree

section

variable {a : BuildArguments} {h : Host} {d root : Location} {m : Path}

/-- The manifest that a command without relative paths is about. -/
def manifestAt (a : BuildArguments) (root : Location) : Path :=
  a.manifest.getD ((Path.ofLocation root).child Manifest.fileName)

theorem manifestPath_moved (ha : a.Rooted) (hd : h.tree.lookup d = some .directory)
    (hroot : h.tree.Nearest d root) :
    manifestPath a (h.moved d) = .ok (manifestAt a root) := by
  rw [manifestPath_eq (h := h.moved d) hd, manifestAt]
  cases hmanifest : a.manifest with
  | some p => exact congrArg _ (Path.absolutize_of_isAbsolute _ (ha.manifest p hmanifest))
  | none => exact View.findManifest_of_nearest (v := (h.moved d).toView) hd hroot

/-- A manifest that was looked for has a directory above it. -/
theorem exists_parent_manifestAt (ha : a.Rooted) (hroot : h.tree.Nearest d root)
    (hparent : ∀ p, a.manifest = some p → p.parent? ≠ none) :
    ∃ q, (manifestAt a root).parent? = some q ∧ q.isAbsolute = true := by
  rw [manifestAt]
  cases hmanifest : a.manifest with
  | some p =>
    obtain ⟨q, hq⟩ := Option.ne_none_iff_exists'.1 (hparent p hmanifest)
    exact ⟨q, hq, Path.isAbsolute_of_parent? hq (ha.manifest p hmanifest)⟩
  | none =>
    obtain ⟨c, x, hfile⟩ := FileTree.holdsFile_iff.1 hroot.holds
    have hdirectory : h.tree.lookup root = some .directory := by
      have hdrop := FileTree.lookup_dropLast (t := h.tree) (l := root ++ [Manifest.fileName])
        (by rw [hfile]; simp)
      rwa [List.dropLast_concat] at hdrop
    have hthere := (View.isFile_manifest (v := h.toView) hdirectory).2 hroot.holds
    obtain ⟨q, hq, habs, -⟩ := View.exists_parent_of_isFile
      (Path.isAbsolute_child (Path.isAbsolute_ofLocation root) _) hthere
    exact ⟨q, hq, habs⟩

theorem projectRoot_of_parent {q : Path} (hq : m.parent? = some q) (h : Host) :
    projectRoot h m = q := by
  rw [projectRoot, hq]
  rfl

/-- The files with the configuration are found from everywhere. -/
theorem configFor_moved (hm : m.isAbsolute = true)
    (hhome : ∀ home, h.valueOf? "HOME" = some home → (⟨home⟩ : Path).isAbsolute = true) :
    configFor (h.moved d) m = configFor h m := by
  have hvalue : (h.moved d).valueOf? "HOME" = h.valueOf? "HOME" := rfl
  rw [configFor, configFor, hvalue]
  refine View.configLayers_congr (w := (h.moved d).toView) (v := h.toView) fun p hp => ?_
  refine View.configLayer_of_tree_eq rfl ?_
  rcases List.mem_append.1 hp with hp | hp
  · obtain ⟨home, hset, rfl⟩ := Option.map_eq_some_iff.1 (Option.mem_toList.1 hp)
    exact Path.isAbsolute_child (Path.isAbsolute_child (hhome home hset) _) _
  · rw [List.mem_singleton.1 hp]
    exact Path.isAbsolute_child (Path.isAbsolute_child hm _) _

/-- Without relative paths the working directory makes no difference to the options. -/
theorem options_of_rooted (ha : a.Rooted) (config : Config) (mode : Mode) (wd wd' root : Path)
    (design : PrecompiledDesign) (sources : List SourceFile) :
    options a config mode wd root design sources =
      options a config mode wd' root design sources := by
  have hsame {p : Path} (hp : p.isAbsolute = true) :
      Path.absolutize wd p = Path.absolutize wd' p := by
    rw [Path.absolutize_of_isAbsolute _ hp, Path.absolutize_of_isAbsolute _ hp]
  have hinstallRoot : installRoot a.installRoot config wd root =
      installRoot a.installRoot config wd' root := by
    unfold installRoot
    cases hpath : a.installRoot with
    | some p => exact hsame (ha.installRoot p hpath)
    | none => cases config.toolchain.installRoot <;> rfl
  unfold options
  rw [hinstallRoot]
  cases hpath : a.directory with
  | some p => simp only [hsame (ha.directory p hpath)]
  | none => rfl

/-- A plan is the same where everything that it reads is. -/
theorem plan_congr {h h' : Host} (hm : manifestPath a h = .ok m) (hm' : manifestPath a h' = .ok m)
    (hroot : projectRoot h' m = projectRoot h m)
    (hconfig : configFor h' (projectRoot h m) = configFor h (projectRoot h m))
    (hload : PrecompiledDesign.load h'.toView m = PrecompiledDesign.load h.toView m)
    (hsources : ∀ design, PrecompiledDesign.load h.toView m = .ok design →
      design.extraSources h'.toView = design.extraSources h.toView)
    (hoptions : ∀ config mode root design sources,
      options a config mode h'.workingDirectory root design sources =
        options a config mode h.workingDirectory root design sources) :
    plan a h' = plan a h := by
  simp only [plan, hm, hm', bind, Except.bind, hroot, hconfig, hload, hoptions]
  cases hdesign : PrecompiledDesign.load h.toView m with
  | error f => rfl
  | ok design =>
    simp only [hsources design hdesign]

/-- Every path of the options of a plan is absolute. -/
theorem rooted_of_plan {h : Host} {p : Plan} (h₀ : plan a h = .ok p) : p.options.Rooted := by
  obtain ⟨m, mode, design, sources, hm, -, hdesign, hsources, rfl⟩ := plan_eq_ok_iff.1 h₀
  obtain ⟨hproject, habs, -⟩ := root_of_load (isAbsolute_of_manifestPath hm) hdesign
  have hworking : h.workingDirectory.isAbsolute = true := Path.isAbsolute_ofLocation h.directory
  rw [hproject]
  constructor
  case directory =>
    unfold options
    dsimp only
    split
    next p _ => exact Path.isAbsolute_absolutize hworking p
    next => exact Path.isAbsolute_absolutize habs _
  case installRoot =>
    unfold options installRoot
    dsimp only
    split
    next => exact Path.isAbsolute_absolutize hworking _
    next => exact Path.isAbsolute_absolutize habs _
    next => decide
  case sources => exact View.isAbsolute_of_extraSources habs hsources
  case includes =>
    intro q hq
    obtain ⟨p, -, rfl⟩ := List.mem_map.1 hq
    exact Path.isAbsolute_absolutize habs p

end

/-! ### Commands -/

variable {a : BuildArguments} {h : Host} {d₁ d₂ root : Location}

/-- A command is planned alike in all directories of a project. -/
theorem plan_moved (hproject : SameProject h.tree d₁ d₂ root) (ha : a.Rooted)
    (hparent : ∀ p, a.manifest = some p → p.parent? ≠ none)
    (hhome : ∀ home, h.valueOf? "HOME" = some home → (⟨home⟩ : Path).isAbsolute = true) :
    plan a (h.moved d₂) = plan a (h.moved d₁) := by
  have hm₁ := manifestPath_moved ha hproject.there.1 hproject.nearest.1
  have hm₂ := manifestPath_moved ha hproject.there.2 hproject.nearest.2
  have habs := isAbsolute_of_manifestPath hm₁
  obtain ⟨q, hq, hqabs⟩ := exists_parent_manifestAt ha hproject.nearest.1 hparent
  refine plan_congr hm₁ hm₂ ?_ ?_ (View.load_of_tree_eq rfl habs) ?_ ?_
  · rw [projectRoot_of_parent hq, projectRoot_of_parent hq]
  · rw [projectRoot_of_parent hq, configFor_moved hqabs hhome, configFor_moved hqabs hhome]
  · intro design hdesign
    exact View.extraSources_of_tree_eq (w := (h.moved d₂).toView) (v := (h.moved d₁).toView) rfl
      (root_of_load habs hdesign).2.1
  · exact fun config mode root design sources =>
      options_of_rooted ha config mode _ _ root design sources

/-- Reports of one build told from two directories. -/
theorem alike_finished {format : MessageFormat} {wd wd' : Path} {name : String} {r : Build.Report}
    {h₁ h₂ : Host} (hj : h₁.journal = h₂.journal) (ht : h₁.tree = h₂.tree) :
    Alike (format = .json) (finished format wd name r, h₁) (finished format wd' name r, h₂) := by
  cases format with
  | human =>
    refine ⟨rfl, rfl, fun hshown => ?_, hj, ht⟩
    rcases hshown with hcode | hjson
    · exact absurd rfl hcode
    · cases hjson
  | json => exact ⟨rfl, rfl, fun _ => rfl, hj, ht⟩

/-- Builds of one plan from two directories. -/
theorem alike_of_plan (tools : Tools) (hd₁ : h.tree.lookup d₁ = some .directory)
    (hd₂ : h.tree.lookup d₂ = some .directory)
    (hplan : plan a (h.moved d₂) = plan a (h.moved d₁)) :
    Alike (a.format = .json) (runBuild tools a (h.moved d₁)) (runBuild tools a (h.moved d₂)) := by
  rw [runBuild, runBuild, hplan]
  cases hp : plan a (h.moved d₁) with
  | error f => exact ⟨rfl, rfl, fun _ => rfl, rfl, rfl⟩
  | ok p =>
    have hmoved : (h.moved d₂).moved d₁ = h.moved d₁ := rfl
    obtain ⟨hr, ht, hj⟩ := Build.run_moved (g := p.design.generator)
      (e := equipment tools p.design) (h.moved d₂) d₁ (rooted_of_plan hp) hd₂ hd₁
    rw [hmoved] at hr ht hj
    dsimp only
    cases hrun₁ : Build.run p.design.generator p.options (equipment tools p.design)
        (h.moved d₁) with
    | mk r₁ p₁ =>
      cases hrun₂ : Build.run p.design.generator p.options (equipment tools p.design)
          (h.moved d₂) with
      | mk r₂ p₂ =>
        rw [hrun₁, hrun₂] at hr ht hj
        obtain rfl : r₁ = r₂ := hr
        cases r₁ with
        | error f => exact ⟨rfl, rfl, fun _ => rfl, hj, ht⟩
        | ok r => exact alike_finished hj ht

/-- What arguments ask for, if it is anything, is a build as `P` says. -/
def AsksFor (environment : Option String) (arguments : List String)
    (P : BuildArguments → Prop) : Prop :=
  ∀ request, parse environment arguments = .ok request → ∃ a, request = .build a ∧ P a

theorem asksFor_of_parse {environment : Option String} {arguments : List String}
    {P : BuildArguments → Prop} (h : parse environment arguments = .ok (.build a)) :
    AsksFor environment arguments P ↔ P a := by
  constructor
  · intro hasks
    obtain ⟨b, hb, hP⟩ := hasks _ h
    rw [Request.build.inj hb]
    exact hP
  · intro hP request hrequest
    exact ⟨a, Except.ok.inj (hrequest.symm.trans h), hP⟩

theorem parse_jsonBuild : parse none jsonBuild = .ok (.build jsonArguments) := by
  decide +kernel

theorem rooted_jsonArguments : jsonArguments.Rooted :=
  ⟨nofun, nofun, nofun⟩

/-- **A build command does the same in all directories of a project**, if no path that it is given
is relative, the manifest that is named has a directory above it, and the user's own directory is
not relative. -/
theorem alike_of_project {tools : Tools} {arguments : List String}
    (hproject : SameProject h.tree d₁ d₂ root)
    (harguments : AsksFor (h.environment.lookup "XILINX_ISE_PATH") arguments fun a =>
      a.Rooted ∧ ∀ p, a.manifest = some p → p.parent? ≠ none)
    (hhome : ∀ home, h.valueOf? "HOME" = some home → (⟨home⟩ : Path).isAbsolute = true) :
    Alike (AsksFor (h.environment.lookup "XILINX_ISE_PATH") arguments fun a => a.format = .json)
      (run tools arguments (h.moved d₁)) (run tools arguments (h.moved d₂)) := by
  have henvironment (d : Location) : (h.moved d).environment = h.environment := rfl
  rw [run, run, henvironment, henvironment]
  cases hparse : parse (h.environment.lookup "XILINX_ISE_PATH") arguments with
  | error s => exact ⟨rfl, rfl, fun _ => rfl, rfl, rfl⟩
  | ok request =>
    obtain ⟨a, rfl, ha, hparent⟩ := harguments request hparse
    have halike := alike_of_plan tools hproject.there.1 hproject.there.2
      (plan_moved hproject ha hparent hhome)
    have hjson := asksFor_of_parse (P := fun a => a.format = .json) hparse
    exact ⟨halike.code, halike.output, fun hshown => halike.errors (hshown.imp_right hjson.1),
      halike.journal, halike.tree⟩

/-- A project is built alike in its directory and in that of its sources. -/
theorem alike_plainProject :
    Alike (AsksFor none jsonBuild fun a => a.format = .json)
      (run Build.quiet jsonBuild (plainProject.moved ["p"]))
      (run Build.quiet jsonBuild (plainProject.moved ["p", "src"])) := by
  have hproject : SameProject plainProject.tree ["p"] ["p", "src"] ["p"] := by
    decide +kernel
  exact alike_of_project hproject
    ((asksFor_of_parse parse_jsonBuild).2 ⟨rooted_jsonArguments, nofun⟩) nofun

/-! ### Other commands -/

/-- A build command without relative paths that does not do the same in two directories of a
project. -/
def Apart (arguments : List String) (h : Host) (d₁ d₂ root : Location) : Prop :=
  SameProject h.tree d₁ d₂ root ∧
    AsksFor (h.environment.lookup "XILINX_ISE_PATH") arguments BuildArguments.Rooted ∧
    ¬ Alike (AsksFor (h.environment.lookup "XILINX_ISE_PATH") arguments fun a => a.format = .json)
      (run Build.quiet arguments (h.moved d₁)) (run Build.quiet arguments (h.moved d₂))

/-- A configuration with a mode that there is not. -/
def faultyConfig : Entry := .file (.text "[build]\nmode = \"none\"\n") false

/-- A project with a configuration below one of its directories. -/
def innerConfig : Host :=
  Host.start ⟨(projectTree "").plant ["p", "src", ".isebuild", "config.toml"] faultyConfig, []⟩ []

/-- A project with the configuration of a user whose own directory is relative. -/
def relativeHome : Host :=
  Host.start ⟨(projectTree "").plant ["p", "home", ".isebuild", "config.toml"] faultyConfig, []⟩
    [("HOME", "home")]

def rootBuild : List String := ["build", "--manifest-path", "/"]

def rootArguments : BuildArguments :=
  ⟨some ⟨"/"⟩, none, none, none, none, false, false, .human⟩

/-- **Two ways in which the working directory still counts**: the root is no manifest below a
directory, so that the configuration is looked for in the working directory, and the configuration
of a user is looked for below a relative directory. -/
theorem not_alike : Apart rootBuild innerConfig ["p"] ["p", "src"] ["p"] ∧
    Apart jsonBuild relativeHome ["p"] ["p", "src"] ["p"] := by
  constructor
  · have hparse : parse none rootBuild = .ok (.build rootArguments) := by
      decide +kernel
    refine ⟨by decide +kernel, (asksFor_of_parse hparse).2 ⟨?_, nofun, nofun⟩, fun halike => ?_⟩
    · intro p hp
      rw [← Option.some.inj hp]
      rfl
    · have herrors := halike.errors (.inl (by decide +kernel))
      exact absurd herrors (by decide +kernel)
  · refine ⟨by decide +kernel, (asksFor_of_parse parse_jsonBuild).2 rooted_jsonArguments,
      fun halike => ?_⟩
    exact absurd halike.code (by decide +kernel)

end Command

end FpgaFlow
