import FpgaFlow.Proofs.Build.Toolchain
import FpgaFlow.Proofs.Command.Standpoint
import FpgaFlow.Proofs.Host.Installation

/-!
# What a report says about a build

The inspection command and the build command find the project, its configuration and
the installation root in the same way (`reportOf_eq`).  The inspection looks below the
root before the build, and the build when everything else is generated.  If nothing has
changed there in between, and none of the directories that the path of the root leaves
again, then both find the same version with the same settings script
(`foretells_of_sources`).

**Main statement** `report_foretells`.  What is below the root alone does not decide it:
a build can make a directory that the path of the root goes through (`report_misleads`).
-/

namespace FpgaFlow

/-- Through all events what is below a path stays as it was in a tree. -/
def Unwritten (tools : Tools) (t : FileTree) (root : Path) (events : List Event) : Prop :=
  ∀ before ∈ events.inits,
    (before.foldl (Event.apply tools) t).contents root.location = t.contents root.location

/-- Through all events the same directories are there that a path leaves again. -/
def Passable (tools : Tools) (t : FileTree) (root : Path) (events : List Event) : Prop :=
  ∀ before ∈ events.inits, ∀ l ∈ root.detours,
    (before.foldl (Event.apply tools) t).lookup l = some .directory ↔
      t.lookup l = some .directory

instance (tools : Tools) (t : FileTree) (root : Path) (events : List Event) :
    Decidable (Unwritten tools t root events) :=
  inferInstanceAs (Decidable (∀ _ ∈ _, _))

instance (tools : Tools) (t : FileTree) (root : Path) (events : List Event) :
    Decidable (Passable tools t root events) :=
  inferInstanceAs (Decidable (∀ _ ∈ _, ∀ _ ∈ _, _))

theorem Unwritten.sameBelow {tools : Tools} {t : FileTree} {root : Path} {events : List Event}
    (hu : Unwritten tools t root events) (hp : Passable tools t root events)
    {before : List Event} (hbefore : before <+: events) :
    SameBelow t (before.foldl (Event.apply tools) t) root :=
  ⟨hu before ((List.mem_inits _ _).2 hbefore), hp before ((List.mem_inits _ _).2 hbefore)⟩

/-- What was done to a host since it was `h`. -/
def Host.since (h h' : Host) : List Event :=
  h'.journal.drop h.journal.length

namespace Command

open Build (Sources writtenSince scriptText setupCommands)

/-- The inspection that a command reports. -/
def reportOf (b : ToolchainArguments) (h : Host) : Inspection :=
  let root := match h.findManifest h.workingDirectory with
    | .ok manifest => projectRoot h manifest
    | .error _ => h.workingDirectory
  h.inspect (installRoot b.installRoot (configFor h root) h.workingDirectory root)

/-- The answer that shows a report. -/
def shown (format : MessageFormat) (verbose : Bool) (report : Inspection) : Answer :=
  match format with
  | .human => ⟨0, report.render verbose, ""⟩
  | .json => ⟨0, Json.render report.encode ++ "\n", ""⟩

theorem runToolchain_eq {h : Host} (hthere : h.tree.lookup h.directory = some .directory)
    (b : ToolchainArguments) (verbose : Bool) :
    runToolchain b verbose h = shown b.format verbose (reportOf b h) := by
  rw [runToolchain, located_of_there hthere]
  rfl

/-- The build that is planned. -/
def Plan.build (p : Plan) (tools : Tools) (h : Host) :
    Except Failure Build.Report × Build.Progress :=
  Build.run p.design.generator p.options (equipment tools p.design) h

/-- The answer of a command to how its build ended. -/
def Plan.answer (p : Plan) (format : MessageFormat) (h : Host) :
    Except Failure Build.Report → Answer
  | .error f => failed f
  | .ok r => finished format h.workingDirectory p.options.name r

theorem runBuild_of_plan {tools : Tools} {a : BuildArguments} {h : Host} {p : Plan}
    (hplan : plan a h = .ok p) : runBuild tools a h =
      (p.answer a.format h (p.build tools h).1, (p.build tools h).2.host) := by
  rw [runBuild, hplan, Plan.build]
  dsimp only
  cases Build.run p.design.generator p.options (equipment tools p.design) h with
  | mk r progress => cases r <;> rfl

/-- A report foretells a build that came to its control script and was to set up its tools. -/
structure Foretells (report : Inspection) (o : Build.Options) (h : Host)
    (out : Except Failure Build.Report × Build.Progress) : Prop where
  missing : (∃ f, out.1 = .error f ∧ f.fault? = some (.toolchainNotFound report.installRoot)) ↔
    report.version = none
  unscripted : report.version = none → writtenSince h out.2 o.scriptPath.location = []
  sourced : ∀ version, report.version = some version → ∃ q, report.settings? = some q ∧
    (q = settingsPath report.installRoot version 64 ∨
      q = settingsPath report.installRoot version 32) ∧
    (writtenSince h out.2 o.scriptPath.location = [scriptText o ["source " ++ q.text]] ∨
      writtenSince h out.2 o.scriptPath.location = [] ∧
        ∃ f e, out.1 = .error f ∧ f.cause = .io e)
  there : report.allRequiredPassed = true → ∃ q, report.settings? = some q ∧
    h.isFile q = true ∧ out.2.host.isFile q = true

section

variable {a : BuildArguments} {b : ToolchainArguments} {h : Host} {p : Plan}

/-- **Both commands look below the same root.** -/
theorem reportOf_eq (hmanifest : a.manifest = none) (hroot : b.installRoot = a.installRoot)
    (hplan : plan a h = .ok p) : reportOf b h = h.inspect p.options.installRoot := by
  obtain ⟨m, mode, design, sources, hm, -, -, -, rfl⟩ := plan_eq_ok_iff.1 hplan
  rw [manifestPath_eq (there_of_manifestPath hm), hmanifest] at hm
  dsimp only at hm
  simp only [reportOf, hm, hroot]
  rfl

/-- The commands that a build finds in a tree that does not differ below the root. -/
theorem setupCommands_eq {o : Build.Options} {v : View} (habs : o.installRoot.isAbsolute = true)
    (hsource : o.source = true) (hsame : SameBelow h.tree v.tree o.installRoot) :
    setupCommands o v = Build.orStop ((h.newestVersion o.installRoot).map fun version =>
      ["source " ++ (h.settingsScript o.installRoot version hostBits).text]) := by
  rw [setupCommands, hsource, hsame.environmentCommands (v := h.toView) habs,
    View.environmentCommands_eq]

/-- **A build finds what the report said**, where nothing has changed below the root. -/
theorem foretells_of_sources {o : Build.Options} {v : View}
    {out : Except Failure Build.Report × Build.Progress}
    (habs : o.installRoot.isAbsolute = true) (hsource : o.source = true)
    (hsame : SameBelow h.tree v.tree o.installRoot)
    (hlast : SameBelow h.tree out.2.host.tree o.installRoot)
    (hsources : Sources o h out (setupCommands o v)) :
    Foretells (h.inspect o.installRoot) o h out := by
  rw [setupCommands_eq habs hsource hsame] at hsources
  have hreported := h.version_inspect o.installRoot
  have hsettings := h.settings?_inspect o.installRoot
  have hthere : (h.inspect o.installRoot).allRequiredPassed = true →
      ∃ q, (h.inspect o.installRoot).settings? = some q ∧ h.isFile q = true ∧
        out.2.host.isFile q = true := by
    intro hpassed
    obtain ⟨version, hversion, hfile⟩ := h.isFile_of_allRequiredPassed o.installRoot hpassed
    rw [hversion] at hsettings
    refine ⟨_, hsettings, hfile, ?_⟩
    rw [hlast.isFile_settingsScript (v := h.toView) habs hversion]
    exact hfile
  cases hversion : h.newestVersion o.installRoot with
  | error fault =>
    obtain rfl := View.eq_of_newestVersion_eq_error hversion
    rw [hversion] at hsources hreported
    obtain ⟨hunwritten, f, hf, hcause⟩ := hsources
    have hfault : f.fault? = some (.toolchainNotFound o.installRoot) := by
      rw [Failure.fault?, hcause]
      rfl
    refine ⟨⟨fun _ => hreported, fun _ => ⟨f, hf, hfault⟩⟩, fun _ => hunwritten, ?_, hthere⟩
    intro version hsome
    cases hreported.symm.trans hsome
  | ok version =>
    rw [hversion] at hsources hreported hsettings
    obtain ⟨hwritten, hfound⟩ := hsources
    have hsome : (h.inspect o.installRoot).version ≠ none := by
      rw [hreported]
      exact Option.some_ne_none _
    refine ⟨⟨?_, fun hnone => absurd hnone hsome⟩, fun hnone => absurd hnone hsome, ?_, hthere⟩
    · rintro ⟨f, hf, hfault⟩
      exact absurd hfault (hfound f _ hf)
    · intro text htext
      obtain rfl := Option.some.inj (hreported.symm.trans htext)
      exact ⟨_, hsettings, View.settingsScript_cases _ _ _, hwritten⟩

end

/-- A build runs its tools, sets them up and comes to its control script, and nothing is written
below its installation root. -/
structure Reaches (tools : Tools) (h : Host) (p : Plan) : Prop where
  runs : p.options.run = true
  sources : p.options.source = true
  reached : .runScript ∈ Build.trace (p.build tools h).1
  unwritten : Unwritten tools h.tree p.options.installRoot (h.since (p.build tools h).2.host)

instance (tools : Tools) (h : Host) (p : Plan) : Decidable (Reaches tools h p) :=
  decidable_of_iff (p.options.run = true ∧ p.options.source = true ∧
    .runScript ∈ Build.trace (p.build tools h).1 ∧
    Unwritten tools h.tree p.options.installRoot (h.since (p.build tools h).2.host))
    ⟨fun ⟨h₁, h₂, h₃, h₄⟩ => ⟨h₁, h₂, h₃, h₄⟩, fun h => ⟨h.runs, h.sources, h.reached, h.unwritten⟩⟩

/-- **A report foretells the build.** The inspection command and the build command look below the
same root. When the build comes to its control script with nothing written below the root, and with
the same directories there that the path of the root leaves again, the toolchain is missing exactly
when the report has no version, and else the script sets up the tools by the settings script of the
report. -/
theorem report_foretells {programs : Programs} {inspecting building : List String} {h : Host}
    {b : ToolchainArguments} {verbose : Bool} {a : BuildArguments} {p : Plan} {tools : Tools}
    (htools : tools = Tools.installed h.environment programs)
    (hinspecting : parse (h.environment.lookup "XILINX_ISE_PATH") inspecting =
      .ok (.toolchain b verbose))
    (hbuilding : parse (h.environment.lookup "XILINX_ISE_PATH") building = .ok (.build a))
    (hmanifest : a.manifest = none) (hroot : b.installRoot = a.installRoot)
    (hplan : plan a h = .ok p) :
    run tools inspecting h = (shown b.format verbose (reportOf b h), h) ∧
    run tools building h =
      (p.answer a.format h (p.build tools h).1, (p.build tools h).2.host) ∧
    (reportOf b h).installRoot = p.options.installRoot ∧
    (Reaches tools h p →
      Passable tools h.tree p.options.installRoot (h.since (p.build tools h).2.host) →
      Foretells (reportOf b h) p.options h (p.build tools h)) := by
  have hreport := reportOf_eq hmanifest hroot hplan
  refine ⟨?_, ?_, ?_, fun hreaches hpassable => ?_⟩
  · rw [run, hinspecting, ← runToolchain_eq (there_of_plan hplan)]
  · rw [run, hbuilding]
    exact runBuild_of_plan hplan
  · rw [hreport]
    rfl
  · have hrooted := rooted_of_plan hplan
    have hplain : (equipment tools p.design).tools.Plain :=
      htools ▸ Tools.plain_installed h.environment programs
    obtain ⟨v, before, after, hjournal, htree, hsources⟩ :=
      Build.run_sources hplain hreaches.runs hreaches.reached
    rw [hrooted.within_eq h] at hsources
    have hevents : h.since (p.build tools h).2.host = before ++ after := by
      rw [Host.since, Plan.build, hjournal, List.drop_left]
    have hunwritten := hreaches.unwritten
    rw [hevents] at hunwritten hpassable
    rw [hreport]
    refine foretells_of_sources hrooted.installRoot hreaches.sources ?_ ?_ hsources
    · rw [htree]
      exact hunwritten.sameBelow hpassable (List.prefix_append before after)
    · obtain ⟨_, _, _, events, haccount⟩ :=
        Build.run_account p.design.generator p.options (equipment tools p.design) h
      obtain rfl : events = before ++ after :=
        List.append_cancel_left (haccount.journal.symm.trans hjournal)
      rw [Plan.build, haccount.tree]
      exact hunwritten.sameBelow hpassable List.prefix_rfl

/-- Installed programs that succeed and do nothing. -/
def inertTools : Tools :=
  Tools.installed [("PATH", "/bin")] fun _ _ t => (t, some 0)

/-- A project with a shell, and with a settings script for each of two versions below `ise`. -/
def equippedProject (directory : Location) : Host :=
  Host.start ⟨(((projectTree "").plant ["bin", "bash"] (.file (.text "") true)).plant
    ["p", "ise", "9.1", "ISE_DS", "settings64.sh"] (.file (.text "") false)).plant
    ["p", "ise", "14.7", "ISE_DS", "settings32.sh"] (.file (.text "") false), directory⟩
    [("PATH", "/bin")]

/-- The arguments of an inspection of an installation root. -/
def inspectingArguments (root : Path) : ToolchainArguments :=
  ⟨some root, .human⟩

/-- The arguments of a build with an installation root. -/
def buildingArguments (root : Path) : BuildArguments :=
  ⟨none, none, none, none, some root, false, false, .human⟩

/-- What holds of a plan can be computed. -/
theorem exists_plan {a : BuildArguments} {h : Host} {P : Plan → Prop} [DecidablePred P]
    (hplan : ((plan a h).toOption.map fun p => decide (P p)) = some true) :
    ∃ p, plan a h = .ok p ∧ P p := by
  obtain ⟨p, hp, hP⟩ := Option.map_eq_some_iff.1 hplan
  exact ⟨p, eq_ok_of_toOption hp, of_decide_eq_true hP⟩

/-- The newest version has a script for 32 bits only, which the build uses. -/
theorem foretells_equippedProject :
    ∃ p, plan (buildingArguments ⟨"../ise"⟩) (equippedProject ["p", "src"]) = .ok p ∧
      Foretells (reportOf (inspectingArguments ⟨"../ise"⟩) (equippedProject ["p", "src"])) p.options
        (equippedProject ["p", "src"]) (p.build inertTools (equippedProject ["p", "src"])) ∧
      (reportOf (inspectingArguments ⟨"../ise"⟩) (equippedProject ["p", "src"])).settings? =
        some ⟨"/p/src/../ise/14.7/ISE_DS/settings32.sh"⟩ := by
  obtain ⟨p, hplan, hreaches, hpassable⟩ := exists_plan (P := fun p =>
    Reaches inertTools (equippedProject ["p", "src"]) p ∧
      Passable inertTools (equippedProject ["p", "src"]).tree p.options.installRoot
        ((equippedProject ["p", "src"]).since
          (p.build inertTools (equippedProject ["p", "src"])).2.host))
    (a := buildingArguments ⟨"../ise"⟩) (h := equippedProject ["p", "src"]) (by decide +kernel)
  have hinspecting : parse none ["toolchain", "--ise-path", "../ise"] =
      .ok (.toolchain (inspectingArguments ⟨"../ise"⟩) false) := by
    decide +kernel
  have hbuilding : parse none ["build", "--ise-path", "../ise"] =
      .ok (.build (buildingArguments ⟨"../ise"⟩)) := by
    decide +kernel
  obtain ⟨-, -, -, hforetells⟩ :=
    report_foretells (h := equippedProject ["p", "src"]) rfl hinspecting hbuilding rfl rfl hplan
  exact ⟨p, hplan, hforetells hreaches hpassable, by decide +kernel⟩

/-- **A report can mislead** although nothing is written below the root: the build makes its own
directory, through which the path of the root goes, and so finds a toolchain. -/
theorem report_misleads :
    ∃ p, plan (buildingArguments ⟨"build/../ise"⟩) (equippedProject ["p"]) = .ok p ∧
      Reaches inertTools (equippedProject ["p"]) p ∧
      (reportOf (inspectingArguments ⟨"build/../ise"⟩) (equippedProject ["p"])).version = none ∧
      (p.build inertTools (equippedProject ["p"])).1.isOk = true := by
  obtain ⟨p, hplan, hreaches, hok⟩ := exists_plan (P := fun p =>
    Reaches inertTools (equippedProject ["p"]) p ∧
      (p.build inertTools (equippedProject ["p"])).1.isOk = true)
    (a := buildingArguments ⟨"build/../ise"⟩) (h := equippedProject ["p"]) (by decide +kernel)
  exact ⟨p, hplan, hreaches, by decide +kernel, hok⟩

end Command

end FpgaFlow
