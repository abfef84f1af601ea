import FpgaFlow.Command.Plan
import FpgaFlow.Proofs.Glob.Sources
import FpgaFlow.Proofs.Tree.Overwriting
import Mathlib.Data.List.Find

/-!
# Plans that are made again

A later host is one where files were written that are neither a manifest nor a
configuration by their names (`Later`).  What a plan reads is found there again:
the manifest (`Later.manifestPath_again`), the configuration of the project
(`Later.sameFile_projectFile`) and the design.

**Main statement** `Later.plan_again`: the plan that is made of a later host is the
first one up to its sources, and where `xst` reads the sources these are the same too,
if each of them was there before.
-/

namespace FpgaFlow

namespace View

variable {v : View} {p q : Path} {l : Location}

theorem isDirectory_of_mem_ancestors (hthere : v.tree.lookup v.directory = some .directory)
    (hq : q ∈ (Path.ofLocation v.directory).ancestors) :
    q.isAbsolute = true ∧ v.isDirectory q = true := by
  obtain ⟨hsteps, habs⟩ := Path.of_mem_ancestors hq
  have hnames : ∀ s ∈ v.directory, FileTree.IsName s := fun s hs =>
    FileTree.isName_of_lookup (by rw [hthere]; simp) hs
  rw [Path.steps_ofLocation hnames] at hsteps
  have hq := habs (Path.isAbsolute_ofLocation v.directory)
  refine ⟨hq, isDirectory_of_beginning hq (l := v.directory) ?_ hthere hsteps⟩
  exact walk_of_lookup (d := []) (FileTree.lookup_nil _) (by rw [List.nil_append, hthere]; rfl)

/-- The last step to a file starts in a directory and is not `.`. -/
theorem steps_of_isFile (hp : p.isAbsolute = true) (hfile : v.isFile p = true) :
    ∃ way name d, p.steps = way ++ [name] ∧ name ≠ "." ∧ walk v.tree [] way = .ok d ∧
      v.tree.lookup d = some .directory := by
  obtain ⟨l, c, x, hl, hlookup⟩ := isFile_iff.1 hfile
  obtain ⟨-, hwalk, -⟩ := resolve_eq_ok_iff.1 hl
  rw [start_eq_nil hp] at hwalk
  rcases List.eq_nil_or_concat' p.steps with hnil | ⟨way, name, hsteps⟩
  · rw [hnil, walk_nil, Except.ok.injEq] at hwalk
    rw [← hwalk, FileTree.lookup_nil] at hlookup
    cases hlookup
  · rw [hsteps, walk_append_eq_ok_iff] at hwalk
    obtain ⟨d, hd, hlast⟩ := hwalk
    obtain ⟨hdirectory, hend⟩ := walk_cons_eq_ok_iff.1 hlast
    refine ⟨way, name, d, hsteps, ?_, hd, hdirectory⟩
    rintro rfl
    rw [walk_nil, Except.ok.injEq] at hend
    rw [← hend, show step d "." = d from rfl, hdirectory] at hlookup
    cases hlookup

/-- A file has a directory above it. -/
theorem exists_parent_of_isFile (hp : p.isAbsolute = true) (hfile : v.isFile p = true) :
    ∃ q, p.parent? = some q ∧ q.isAbsolute = true ∧ v.isDirectory q = true := by
  obtain ⟨way, name, d, hsteps, hname, hwalk, hd⟩ := steps_of_isFile hp hfile
  cases hparent : p.parent? with
  | none => exact absurd (Path.eq_dot_of_parent?_eq_none hp hparent name (by simp [hsteps])) hname
  | some q =>
    have hq := Path.isAbsolute_of_parent? hparent hp
    have hbeginning := Path.steps_parent?_of_concat hparent (Path.text_ne_empty_of_isAbsolute hq)
      hsteps hname
    exact ⟨q, rfl, hq, isDirectory_of_beginning hq hwalk hd hbeginning⟩

theorem readText_eq_ok_iff {text : String} : v.readText p = .ok text ↔ v.read p = .ok text :=
  Action.inContext_eq_ok_iff

/-- A configuration is read again where its file is as before. -/
theorem SameFile.configLayer {w : View} (h : SameFile v w p) :
    w.configLayer p = v.configLayer p := by
  have hread (text : String) : w.read p = .ok text ↔ v.read p = .ok text := by
    rw [read_eq_ok_iff, read_eq_ok_iff]
    exact exists_congr fun x => h (.text text) x
  rw [View.configLayer, View.configLayer, loadConfig, loadConfig]
  cases hv : v.read p with
  | ok text => rw [(hread text).2 hv]
  | error e =>
    cases hw : w.read p with
    | error e' => rfl
    | ok text =>
      rw [(hread text).1 hw] at hv
      cases hv

theorem configLayers_congr {w : View} {ps : List Path}
    (h : ∀ p ∈ ps, w.configLayer p = v.configLayer p) : w.configLayers ps = v.configLayers ps := by
  rw [configLayers, configLayers]
  exact List.foldl_ext _ _ _ fun c p hp => by rw [h p hp]

end View

/-! ### Further sources -/

namespace PrecompiledDesign

/-- A path as a source file, if its language is known. -/
def asSource? (q : Path) : Option SourceFile :=
  (Language.ofExtension? (q.extension?.getD "")).map fun language => ⟨q, language⟩

/-- Whether a path has a language does not depend on its spelling. -/
theorem isSome_asSource?_congr {p q : Path} (h : p.same q = true) :
    (asSource? p).isSome = (asSource? q).isSome := by
  have hextension : p.extension? = q.extension? := by
    rw [Path.extension?, Path.extension?, Path.fileName?, Path.fileName?, View.same_iff.1 h]
  rw [asSource?, asSource?, Option.isSome_map, Option.isSome_map, hextension]

theorem path_of_asSource? {q : Path} {s : SourceFile} (h : asSource? q = some s) : s.path = q := by
  obtain ⟨language, -, rfl⟩ := Option.map_eq_some_iff.1 h
  rfl

theorem filterMap_asSource? (ps : List Path) : ps.filterMap asSource? =
    (ps.filter fun q => (asSource? q).isSome).filterMap asSource? := by
  rw [List.filterMap_filter]
  refine List.filterMap_congr fun q _ => ?_
  cases asSource? q <;> rfl

theorem extraSources_eq (d : PrecompiledDesign) (v : View) : d.extraSources v =
    (v.gather d.root d.manifest.design.sources).map fun found =>
      (View.kept found).filterMap asSource? := by
  rw [extraSources, View.findFiles_eq]
  cases v.gather d.root d.manifest.design.sources <;> rfl

variable {d : PrecompiledDesign} {v w : View}

/-- **A design has the same further sources in a tree that grew**, if none of them is new. -/
theorem extraSources_of_grows (hg : v.tree.Grows w.tree) (hsame : w.directory = v.directory)
    (hroot : d.root.isAbsolute = true)
    (hold : ∀ sources, d.extraSources w = .ok sources → ∀ s ∈ sources, v.isFile s.path = true) :
    d.extraSources w = d.extraSources v := by
  have hgather := View.gather_of_grows hg hsame hroot d.manifest.design.sources
  rw [extraSources_eq] at hold
  rw [extraSources_eq, extraSources_eq, hgather]
  cases hfound : w.gather d.root d.manifest.design.sources with
  | error e => rfl
  | ok found =>
    have hkept : ∀ q ∈ View.kept found, (asSource? q).isSome = true → v.isFile q = true := by
      intro q hq hsome
      obtain ⟨s, hs⟩ := Option.isSome_iff_exists.1 hsome
      rw [← path_of_asSource? hs]
      exact hold _ (by rw [hfound]; rfl) s (List.mem_filterMap.2 ⟨q, hq, hs⟩)
    simp only [Except.map]
    rw [filterMap_asSource?, filterMap_asSource? (View.kept (found.filter v.isFile)),
      View.filter_kept_filter (fun _ _ => isSome_asSource?_congr) hkept]

theorem exists_extraSources_of_grows (hg : v.tree.Grows w.tree) (hsame : w.directory = v.directory)
    (hroot : d.root.isAbsolute = true) {sources : List SourceFile}
    (h : d.extraSources v = .ok sources) : ∃ found, d.extraSources w = .ok found := by
  rw [extraSources_eq, View.gather_of_grows hg hsame hroot] at h
  obtain ⟨_, h, -⟩ := map_eq_ok_iff.1 h
  obtain ⟨found, hfound, -⟩ := map_eq_ok_iff.1 h
  exact ⟨_, by rw [extraSources_eq, hfound]; rfl⟩

end PrecompiledDesign

namespace Command

/-- The mode that arguments and a configuration choose. -/
def chosenMode (a : BuildArguments) (config : Config) : Except Failure Mode :=
  match a.mode with
  | some text => orFail (Mode.parse text)
  | none => (orFail config.mode?).map fun mode => mode.getD .xst

/-! ### Where a command begins -/

/-- A command knows where it is if its working directory is still there. -/
theorem located_of_there {h : Host} (hthere : h.tree.lookup h.directory = some .directory) :
    located h = .ok h.workingDirectory := by
  rw [located, Host.currentDirectory_eq_ok_iff.2 ⟨hthere, rfl⟩]
  rfl

theorem located_of_gone {h : Host} (hgone : h.tree.lookup h.directory ≠ some .directory) :
    located h = .error (Failure.of (.io .notFound)) := by
  rw [located, Host.currentDirectory, if_neg hgone]
  rfl

/-- The manifest that was named, or else the one that is found. -/
theorem manifestPath_eq {h : Host} (hthere : h.tree.lookup h.directory = some .directory)
    (a : BuildArguments) : manifestPath a h = match a.manifest with
      | some p => .ok (Path.absolutize h.workingDirectory p)
      | none => h.findManifest h.workingDirectory := by
  rw [manifestPath, located_of_there hthere]
  rfl

theorem manifestPath_of_gone {h : Host} (hgone : h.tree.lookup h.directory ≠ some .directory)
    (a : BuildArguments) : manifestPath a h = .error (Failure.of (.io .notFound)) := by
  rw [manifestPath, located_of_gone hgone]
  rfl

/-- A command that comes to a manifest began in a directory. -/
theorem there_of_manifestPath {a : BuildArguments} {h : Host} {m : Path}
    (hm : manifestPath a h = .ok m) : h.tree.lookup h.directory = some .directory := by
  by_contra hgone
  rw [manifestPath_of_gone hgone] at hm
  cases hm

/-! ### Plans -/

theorem plan_eq_ok_iff {a : BuildArguments} {h : Host} {p : Plan} : plan a h = .ok p ↔
    ∃ m mode design sources, manifestPath a h = .ok m ∧
      chosenMode a (configFor h (projectRoot h m)) = .ok mode ∧
      PrecompiledDesign.load h.toView m = .ok design ∧
      design.extraSources h.toView = .ok sources ∧
      p = ⟨design, options a (configFor h (projectRoot h m)) mode h.workingDirectory
        (projectRoot h m) design sources⟩ := by
  unfold plan chosenMode
  cases a.mode with
  | none =>
    simp only [bind_eq_ok_iff]
    constructor
    · rintro ⟨_, hnone, m, hm, hrest⟩
      cases hnone
      obtain ⟨mode, hmode, hrest⟩ := bind_eq_ok_iff.1 hrest
      obtain ⟨design, hdesign, hrest⟩ := bind_eq_ok_iff.1 hrest
      obtain ⟨sources, hsources, hp⟩ := bind_eq_ok_iff.1 hrest
      exact ⟨m, mode, design, sources, hm, hmode, hdesign, hsources, (Except.ok.inj hp).symm⟩
    · rintro ⟨m, mode, design, sources, hm, hmode, hdesign, hsources, rfl⟩
      refine ⟨none, rfl, m, hm, bind_eq_ok_iff.2 ⟨mode, hmode, ?_⟩⟩
      exact bind_eq_ok_iff.2 ⟨design, hdesign, bind_eq_ok_iff.2 ⟨sources, hsources, rfl⟩⟩
  | some text =>
    simp only [bind_eq_ok_iff]
    constructor
    · rintro ⟨_, hsome, m, hm, hrest⟩
      obtain ⟨mode, hmode, rfl⟩ := map_eq_ok_iff.1 hsome
      obtain ⟨_, hchosen, hrest⟩ := bind_eq_ok_iff.1 hrest
      cases hchosen
      obtain ⟨design, hdesign, hrest⟩ := bind_eq_ok_iff.1 hrest
      obtain ⟨sources, hsources, hp⟩ := bind_eq_ok_iff.1 hrest
      exact ⟨m, mode, design, sources, hm, hmode, hdesign, hsources, (Except.ok.inj hp).symm⟩
    · rintro ⟨m, mode, design, sources, hm, hmode, hdesign, hsources, rfl⟩
      refine ⟨some mode, map_eq_ok_iff.2 ⟨mode, hmode, rfl⟩, m, hm, ?_⟩
      refine bind_eq_ok_iff.2 ⟨mode, rfl, bind_eq_ok_iff.2 ⟨design, hdesign, ?_⟩⟩
      exact bind_eq_ok_iff.2 ⟨sources, hsources, rfl⟩

theorem there_of_plan {a : BuildArguments} {h : Host} {p : Plan} (hplan : plan a h = .ok p) :
    h.tree.lookup h.directory = some .directory := by
  obtain ⟨m, -, -, -, hm, -⟩ := plan_eq_ok_iff.1 hplan
  exact there_of_manifestPath hm

/-! ### The root of a project -/

theorem isAbsolute_of_manifestPath {a : BuildArguments} {h : Host} {m : Path}
    (hm : manifestPath a h = .ok m) : m.isAbsolute = true := by
  have hworking : h.workingDirectory.isAbsolute = true := Path.isAbsolute_ofLocation h.directory
  rw [manifestPath_eq (there_of_manifestPath hm)] at hm
  split at hm
  next p _ =>
    rw [← Except.ok.inj hm]
    exact Path.isAbsolute_absolutize hworking p
  next =>
    rw [View.findManifest] at hm
    split at hm
    next q hq =>
      obtain ⟨d, hd, rfl⟩ := List.mem_map.1 (List.mem_of_find?_eq_some hq)
      rw [← Except.ok.inj hm]
      exact Path.isAbsolute_child ((Path.of_mem_ancestors hd).2 hworking) _
    next => cases hm

/-- The directory of a manifest that loads. -/
theorem root_of_load {h : Host} {m : Path} {design : PrecompiledDesign} (hm : m.isAbsolute = true)
    (hload : PrecompiledDesign.load h.toView m = .ok design) :
    projectRoot h m = design.root ∧ design.root.isAbsolute = true ∧
      h.isDirectory design.root = true := by
  obtain ⟨manifest, hmanifest, hdesign⟩ := bind_eq_ok_iff.1 hload
  obtain ⟨text, htext, -⟩ := bind_eq_ok_iff.1 hmanifest
  obtain ⟨x, hx⟩ := View.read_eq_ok_iff.1 (View.readText_eq_ok_iff.1 htext)
  obtain ⟨root, hroot, habs, hdir⟩ :=
    View.exists_parent_of_isFile hm (View.isFile_iff_find.2 ⟨_, x, hx⟩)
  obtain rfl := Except.ok.inj hdesign
  rw [projectRoot, hroot]
  exact ⟨rfl, habs, hdir⟩

/-! ### Later hosts -/

/-- A later host, where some files were written that are no configuration by their names. -/
structure Later (files : List Path) (h again : Host) : Prop where
  overwrites : View.Overwrites files h.toView again.toView
  directory : again.directory = h.directory
  environment : again.environment = h.environment
  endings : ∀ f ∈ files, ∀ l, again.resolve f = .ok l → View.endingAt l ≠ some "toml".toList
  there : h.tree.lookup h.directory = some .directory

section

variable {files : List Path} {h again : Host} {dir q : Path} {file : String}

theorem Later.start_eq (hl : Later files h again) (q : Path) :
    again.toView.start q = h.toView.start q := by
  rw [View.start, View.start, hl.directory]

theorem Later.workingDirectory_eq (hl : Later files h again) :
    again.workingDirectory = h.workingDirectory :=
  congrArg Path.ofLocation hl.directory

theorem Later.distinct (hl : Later files h again) (hext : View.Extended file "toml") :
    ∀ f ∈ files, again.Distinct (dir.child file) f := by
  intro f hf l hresolve hf'
  exact hl.endings f hf l hf' (View.ending_of_resolve hext (by decide) hresolve)

theorem extended_manifest : View.Extended Manifest.fileName "toml" :=
  ⟨by decide, by decide, "Isebuild", rfl⟩

theorem extended_config : View.Extended "config.toml" "toml" :=
  ⟨by decide, by decide, "config", rfl⟩

theorem Later.sameFile_manifest (hl : Later files h again) (hdir : dir.isAbsolute = true)
    (hthere : h.isDirectory dir = true) :
    View.SameFile h.toView again.toView (dir.child Manifest.fileName) := by
  have hdown : View.down dir [Manifest.fileName] = dir.child Manifest.fileName :=
    View.down_eq_foldl_child hdir _
  rw [← hdown]
  refine hl.overwrites.sameFile_down hdir hthere ?_ ?_
  · intro s hs
    rw [List.mem_singleton.1 hs]
    exact ⟨by decide, by decide, by decide, by decide⟩
  · rw [hdown]
    exact hl.distinct extended_manifest

theorem Later.sameFile_projectFile (hl : Later files h again) (hdir : dir.isAbsolute = true)
    (hthere : h.isDirectory dir = true) :
    View.SameFile h.toView again.toView (Config.projectFile dir) := by
  have hdown : View.down dir [".isebuild", "config.toml"] = Config.projectFile dir :=
    View.down_eq_foldl_child hdir _
  rw [← hdown]
  refine hl.overwrites.sameFile_down hdir hthere ?_ ?_
  · intro s hs
    rcases List.mem_cons.1 hs with rfl | hs
    · exact ⟨by decide, by decide, by decide, by decide⟩
    · rw [List.mem_singleton.1 hs]
      exact ⟨by decide, by decide, by decide, by decide⟩
  · rw [hdown]
    exact hl.distinct extended_config

/-! ### Planning again -/

theorem Later.there_again (hl : Later files h again) :
    again.tree.lookup again.directory = some .directory := by
  rw [hl.directory]
  exact hl.overwrites.grows.directory hl.there

theorem Later.manifestPath_again (hl : Later files h again) (a : BuildArguments) :
    manifestPath a again = manifestPath a h := by
  rw [manifestPath_eq hl.there_again, manifestPath_eq hl.there, hl.workingDirectory_eq]
  cases a.manifest with
  | some p => rfl
  | none =>
    have hfind : ∀ q ∈ h.workingDirectory.ancestors.map fun d => d.child Manifest.fileName,
        again.isFile q = h.isFile q := by
      intro q hq
      obtain ⟨d, hd, rfl⟩ := List.mem_map.1 hq
      obtain ⟨habs, hdir⟩ := View.isDirectory_of_mem_ancestors (v := h.toView) hl.there hd
      exact (hl.sameFile_manifest habs hdir).isFile
    simp only [View.findManifest, List.find?_congr hfind]

/-- The configuration of a user may be one that is found only now. -/
theorem Later.configFor_eq (hl : Later files h again) {root : Path} (hroot : root.isAbsolute = true)
    (hthere : h.isDirectory root = true)
    (huser : ∀ home, h.valueOf? "HOME" = some home →
      again.isFile (Config.userFile ⟨home⟩) = true → h.isFile (Config.userFile ⟨home⟩) = true) :
    configFor again root = configFor h root := by
  have hhome : again.valueOf? "HOME" = h.valueOf? "HOME" := by
    rw [Host.valueOf?, Host.valueOf?, hl.environment]
  rw [configFor, configFor, hhome]
  refine View.configLayers_congr fun q hq => ?_
  rcases List.mem_append.1 hq with hq | hq
  · obtain ⟨home, hset, rfl⟩ := Option.map_eq_some_iff.1 (Option.mem_toList.1 hq)
    exact (hl.overwrites.sameFile (hl.start_eq _) (hl.distinct extended_config)
      (huser home hset)).configLayer
  · rw [List.mem_singleton.1 hq]
    exact (hl.sameFile_projectFile hroot hthere).configLayer

theorem Later.load_eq (hl : Later files h again) {m : Path} (hm : ∀ f ∈ files, again.Distinct m f)
    {design : PrecompiledDesign} (hload : PrecompiledDesign.load h.toView m = .ok design) :
    PrecompiledDesign.load again.toView m = .ok design := by
  obtain ⟨manifest, hmanifest, hdesign⟩ := bind_eq_ok_iff.1 hload
  obtain ⟨text, htext, hparse⟩ := bind_eq_ok_iff.1 hmanifest
  have hread := hl.overwrites.read (hl.start_eq m) hm (View.readText_eq_ok_iff.1 htext)
  refine bind_eq_ok_iff.2 ⟨manifest, bind_eq_ok_iff.2 ⟨text, ?_, hparse⟩, hdesign⟩
  exact View.readText_eq_ok_iff.2 hread

/-- **A plan is made again**, but for further sources that nothing reads. -/
theorem Later.plan_again (hl : Later files h again) {a : BuildArguments} {m : Path} {p : Plan}
    (hm : manifestPath a h = .ok m) (hp : plan a h = .ok p)
    (hmanifest : ∀ f ∈ files, again.Distinct m f)
    (huser : ∀ home, h.valueOf? "HOME" = some home →
      again.isFile (Config.userFile ⟨home⟩) = true → h.isFile (Config.userFile ⟨home⟩) = true)
    (hold : p.options.mode = .xst → ∀ sources, p.design.extraSources again.toView = .ok sources →
      ∀ s ∈ sources, h.isFile s.path = true) :
    ∃ sources, plan a again = .ok ⟨p.design, { p.options with sources := sources }⟩ ∧
      (p.options.mode = .xst → sources = p.options.sources) := by
  obtain ⟨m', mode, design, sources, hm', hmode, hdesign, hsources, rfl⟩ := plan_eq_ok_iff.1 hp
  obtain rfl : m' = m := Except.ok.inj (hm'.symm.trans hm)
  obtain ⟨hproject, hroot, hdir⟩ := root_of_load (isAbsolute_of_manifestPath hm) hdesign
  have hworking := hl.workingDirectory_eq
  have hagain : projectRoot again m' = projectRoot h m' := by
    rw [projectRoot, projectRoot, hworking]
  have hconfig : configFor again (projectRoot h m') = configFor h (projectRoot h m') := by
    rw [hproject]
    exact hl.configFor_eq hroot hdir huser
  have hgrows := hl.overwrites.grows
  obtain ⟨sources', hsources'⟩ :=
    PrecompiledDesign.exists_extraSources_of_grows hgrows hl.directory hroot hsources
  refine ⟨sources', plan_eq_ok_iff.2 ⟨m', mode, design, sources', ?_, ?_, ?_, hsources', ?_⟩, ?_⟩
  · rw [hl.manifestPath_again]
    exact hm
  · rw [hagain, hconfig]
    exact hmode
  · exact hl.load_eq hmanifest hdesign
  · rw [hagain, hconfig, hworking]
    rfl
  · intro hxst
    have hsame := PrecompiledDesign.extraSources_of_grows hgrows hl.directory hroot (hold hxst)
    exact Except.ok.inj (hsources'.symm.trans (hsame.trans hsources))

end

end Command

end FpgaFlow
