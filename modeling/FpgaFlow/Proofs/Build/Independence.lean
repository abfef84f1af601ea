import FpgaFlow.Proofs.Build.Constraints
import FpgaFlow.Proofs.Build.Extension

/-!
# What the implementation tools leave alone

The installation of the tools, the choice whether their environment is set up, and the
options of all tools but the synthesizer are read by the last stage of a build only.  A
build that has no last stage is therefore the same whatever these are
(`stages_reequipped`), and one that sets up no environment does not look at the
installation (`stages_reinstalled`).

**Main statement** `run_ignores_installation`: builds that differ in their installation are the same
builds, or both come to their tools after they have done the same.
-/

namespace FpgaFlow

namespace Build

/-- The options with another installation of the tools. -/
def Options.reinstalled (o : Options) (root : Path) : Options :=
  { o with installRoot := root }

/-- The options with other words for everything that comes after the synthesis. -/
def Options.reequipped (o : Options) (root : Path) (source : Bool) (tools : ToolOptions) :
    Options :=
  { o with installRoot := root, source := source, tools := { tools with xst := o.tools.xst } }

/-- Two builds that are alike up to their tools. Either both fail in the same way before they come
to them, as the build that only generates does. Or both go on from the end of that build, each with
its own control script. -/
inductive AlikeUpToTools (g : Generator) (options : Options) (e : Equipment) (h : Host) :
    Except Failure Report × Progress → Except Failure Report × Progress → Prop
  | stopped {f : Failure} {p₀ : Progress} :
      run g (options.running false) e h = (.error f, p₀) → .runScript ∉ trace (.error f) →
      AlikeUpToTools g options e h (.error f, p₀) (.error f, p₀)
  | parted {r₀ : Report} {p₀ : Progress} {before events events' : List Event}
      {out out' : Except Failure Report × Progress} :
      run g (options.running false) e h = (.ok r₀, p₀) →
      p₀.host.journal = h.journal ++ before →
      p₀.host.tree = before.foldl (Event.apply e.tools) h.tree →
      Extends (options.within h) e r₀ p₀ events out →
      Extends (options.within h) e r₀ p₀ events' out' →
      AlikeUpToTools g options e h out out'

section

variable {g : Generator} {o options : Options} {e : Equipment} {h : Host}

/-! ### Stages -/

/-- **Generation does not know the tools that come after it.** -/
theorem stages_reequipped (hrun : o.run = false) (root : Path) (source : Bool)
    (tools : ToolOptions) : stages g (o.reequipped root source tools) e = stages g o e := by
  have hrun' : (o.reequipped root source tools).run = false := hrun
  have hname : (o.reequipped root source tools).name = o.name := rfl
  have hdirectory : (o.reequipped root source tools).directory = o.directory := rfl
  have hgenerate : generate g (o.reequipped root source tools) e = generate g o e := rfl
  simp only [stages, hrun, hrun', hname, hdirectory, hgenerate, Bool.false_eq_true, if_false]

/-- No installation is looked at for an environment that nobody asked for. -/
theorem environmentCommands_of_unwanted (v : View) (root : Path) :
    v.environmentCommands root false = .ok [] := rfl

theorem runTools_reinstalled (hsource : o.source = false) (root : Path) :
    runTools (o.reinstalled root) e = runTools o e := by
  have hsource' : (o.reinstalled root).source = false := hsource
  have hname : (o.reinstalled root).name = o.name := rfl
  have hdirectory : (o.reinstalled root).directory = o.directory := rfl
  have hmode : (o.reinstalled root).mode = o.mode := rfl
  have htools : (o.reinstalled root).scriptTools = o.scriptTools := rfl
  simp only [runTools, hsource, hsource', hname, hdirectory, hmode, htools,
    environmentCommands_of_unwanted]

theorem stages_reinstalled (h : o.run = false ∨ o.source = false) (root : Path) :
    stages g (o.reinstalled root) e = stages g o e := by
  rcases h with hrun | hsource
  · exact stages_reequipped hrun root o.source o.tools
  · have hgenerate : generate g (o.reinstalled root) e = generate g o e := rfl
    have hrun : (o.reinstalled root).run = o.run := rfl
    have hname : (o.reinstalled root).name = o.name := rfl
    have hdirectory : (o.reinstalled root).directory = o.directory := rfl
    simp only [stages, hgenerate, hrun, hname, hdirectory, runTools_reinstalled hsource]

/-! ### Whole builds -/

/-- Builds in one directory and one mode are the same if their stages are. -/
theorem run_of_stages {o' : Options} (hmode : o'.mode = options.mode)
    (hdirectory : o'.directory = options.directory)
    (hstages : stages g (o'.within h) e = stages g (options.within h) e) :
    run g o' e h = run g options e h := by
  have hwithin : (o'.within h).directory = (options.within h).directory :=
    congrArg (Path.absolutize h.workingDirectory) hdirectory
  have henter : enterDirectory (o'.within h) = enterDirectory (options.within h) := by
    rw [enterDirectory, enterDirectory, hwithin]
  have hconclude : conclude (o'.within h) = conclude (options.within h) := by
    funext previous end_
    obtain ⟨r | r, p⟩ := end_
    · rfl
    · show (Except.ok (report (o'.within h) p r), _) = _
      have hreport : report (o'.within h) p r = report (options.within h) p r := by
        rw [report, report, hwithin]
        simp only [Options.within, Options.absolutize, hmode]
      rw [hreport]
      rfl
  have hprepare : prepare o' e h = prepare options e h := prepare_congr hmode e h
  cases hready : prepare options e h with
  | error f => rw [run_of_refused hready, run_of_refused (hprepare.trans hready)]
  | ok wd => rw [run_eq hready, run_eq (hprepare.trans hready), henter, hstages, hconclude]

theorem run_reequipped (hrun : options.run = false) (root : Path) (source : Bool)
    (tools : ToolOptions) :
    run g (options.reequipped root source tools) e h = run g options e h :=
  run_of_stages rfl rfl
    (stages_reequipped (o := options.within h) hrun (Path.absolutize h.workingDirectory root)
      source tools)

theorem run_reinstalled (options : Options)
    (hwanted : options.run = false ∨ options.source = false) (root : Path) :
    run g (options.reinstalled root) e h = run g options e h :=
  run_of_stages rfl rfl
    (stages_reinstalled (o := options.within h) hwanted (Path.absolutize h.workingDirectory root))

/-- A build that only generates does not come to its tools. -/
theorem runScript_notMem_trace (hrun : options.run = false) :
    .runScript ∉ trace (run g options e h).1 := by
  generalize hout : run g options e h = out
  have hends : Ends g options e h out := hout ▸ run_ends g options e h
  have hnot (p : Progress) :
      .runScript ∉ (deeds g (options.within h) e p).filterMap Deed.state? := by
    have hrun' : (options.within h).run = false := hrun
    rw [filterMap_state?_deeds, hrun']
    cases (options.within h).mode.usesVerilog <;> decide
  cases hends with
  | refused hprepare =>
    rw [trace_eq_nil (untraced_of_prepare hprepare).1]
    exact List.not_mem_nil
  | outside hbuilding =>
    rw [trace_eq_nil hbuilding]
    exact List.not_mem_nil
  | @reached p p' hp hall =>
    intro hmem
    have hstates : trace (.ok (report (options.within h) p' (bitstreamPath (options.within h)))) =
        p'.states ++ [.done] := rfl
    rw [hstates, hall.advances.states, hp.states] at hmem
    exact hnot p (by simpa using hmem)
  | @stopped p p' done rest d f hp hdeeds hfails =>
    intro hmem
    have hdone : done <+: deeds g (options.within h) e p := ⟨d :: rest, hdeeds.symm⟩
    rw [trace_of_fails hp hfails] at hmem
    exact hnot p ((hdone.filterMap Deed.state?).subset (by simpa using hmem))

/-- Builds with tools differ after the end of the build without tools, if at all. -/
theorem alikeUpToTools (hrun : options.run = true) (root : Path) :
    AlikeUpToTools g options e h (run g options e h) (run g (options.reinstalled root) e h) := by
  obtain ⟨_, _, _, before, haccount⟩ := run_account g (options.running false) e h
  have hjournal := haccount.journal
  have htree := haccount.tree
  have htrace : .runScript ∉ trace (run g (options.running false) e h).1 :=
    runScript_notMem_trace rfl
  have hrunning : options.running true = options := by rw [Options.running, ← hrun]
  have hrunning' : (options.reinstalled root).running true = options.reinstalled root := by
    rw [Options.running, ← hrun]
    rfl
  have hshort' : run g ((options.reinstalled root).running false) e h =
      run g (options.running false) e h :=
    run_reinstalled (options.running false) (.inl rfl) root
  have hlong : run g (options.running true) e h = run g options e h := by rw [hrunning]
  have hlong' : run g ((options.reinstalled root).running true) e h =
      run g (options.reinstalled root) e h := by rw [hrunning']
  cases hshort : run g (options.running false) e h with
  | mk r p₀ =>
    rw [hshort] at hjournal htree htrace hshort'
    cases r with
    | error f =>
      rw [← hlong, ← hlong', running_of_error hshort, running_of_error hshort']
      exact .stopped hshort htrace
    | ok r₀ =>
      obtain ⟨events, hextends⟩ := extends_of_ok hshort
      obtain ⟨events', hextends'⟩ := extends_of_ok hshort'
      rw [hlong] at hextends
      rw [hlong'] at hextends'
      -- the place and the name of the control script do not depend on the installation
      have hsame : Extends (options.within h) e r₀ p₀ events'
          (run g (options.reinstalled root) e h) :=
        ⟨hextends'.journal, hextends'.tree, hextends'.writes, hextends'.calls, hextends'.states,
          hextends'.files⟩
      exact .parted hshort hjournal htree hextends hsame

end

/-- **The implementation tools do not influence generation.** A build that does not run the tools,
or sets up no environment for them, is the same for every installation. Without the tools it is also
the same for all options of the tools that come after the synthesizer. With them, builds for two
installations are alike up to the tools. -/
theorem run_ignores_installation (g : Generator) (options : Options) (e : Equipment) (h : Host)
    (root : Path) :
    (options.run = false ∨ options.source = false →
      run g (options.reinstalled root) e h = run g options e h) ∧
    (options.run = false → ∀ source tools,
      run g (options.reequipped root source tools) e h = run g options e h) ∧
    (options.run = true → options.source = true →
      AlikeUpToTools g options e h (run g options e h) (run g (options.reinstalled root) e h)) :=
  ⟨fun hwanted => run_reinstalled options hwanted root,
    fun hrun source tools => run_reequipped hrun root source tools,
    fun hrun _ => alikeUpToTools hrun root⟩

/-- A host with one version of the tools, below the directory of the design. -/
def equippedHost : Host :=
  { pairedHost with
    tree := pairedHost.tree.plant ["p", "ise", "14.7", "ISE_DS", "settings64.sh"]
      (.file (.text "") false) }

/-- Options for a build in a mode that asks for the netlist. -/
def netlistOptions : Options :=
  { Options.default ⟨"xc6slx9"⟩ with mode := .edif, installRoot := ⟨"ise"⟩ }

/-- A build that generates, one that sets up no environment, and one that finds the tools where the
other does not. -/
theorem ignores_installation_of_pairedDesign :
    run (pairedDesign []).generator ({ netlistOptions with run := false }.reequipped ⟨"/none"⟩ false
        { netlistOptions.tools with map := "-w" }) ⟨quiet, .empty, none⟩ equippedHost =
      run (pairedDesign []).generator { netlistOptions with run := false } ⟨quiet, .empty, none⟩
        equippedHost ∧
    run (pairedDesign []).generator ({ netlistOptions with source := false }.reinstalled ⟨"/none"⟩)
        ⟨quiet, .empty, none⟩ equippedHost =
      run (pairedDesign []).generator { netlistOptions with source := false } ⟨quiet, .empty, none⟩
        equippedHost ∧
    AlikeUpToTools (pairedDesign []).generator netlistOptions ⟨quiet, .empty, none⟩ equippedHost
      (run (pairedDesign []).generator netlistOptions ⟨quiet, .empty, none⟩ equippedHost)
      (run (pairedDesign []).generator (netlistOptions.reinstalled ⟨"/none"⟩)
        ⟨quiet, .empty, none⟩ equippedHost) ∧
    (run (pairedDesign []).generator netlistOptions ⟨quiet, .empty, none⟩ equippedHost).1.isOk =
      true ∧
    (run (pairedDesign []).generator (netlistOptions.reinstalled ⟨"/none"⟩)
      ⟨quiet, .empty, none⟩ equippedHost).1.isOk = false := by
  refine ⟨?_, ?_, ?_, by decide +kernel, by decide +kernel⟩
  · exact (run_ignores_installation _ { netlistOptions with run := false } _ _ ⟨"/none"⟩).2.1 rfl
      false _
  · exact (run_ignores_installation _ { netlistOptions with source := false } _ _ ⟨"/none"⟩).1
      (.inr rfl)
  · exact (run_ignores_installation _ netlistOptions _ _ ⟨"/none"⟩).2.2 rfl rfl

end Build

end FpgaFlow
