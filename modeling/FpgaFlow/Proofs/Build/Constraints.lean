import FpgaFlow.Manifest
import FpgaFlow.Proofs.Build.Extension
import FpgaFlow.Proofs.Build.Written

/-!
# The constraint file

Whatever a design of a manifest is asked, its answer has the tables of the manifest
(`tables_of_answer`).  A build that came past its constraints wrote exactly one text to
their file (`constrained_of_advances`): the files before it and the control script after
it have other extensions, so that none of them is in its place.

**Main statement** `run_constrains`: two builds of manifests that agree in their tables
write the same constraints, whatever else differs between them.
-/

namespace FpgaFlow

namespace PrecompiledDesign

variable {d : PrecompiledDesign} {v : View} {generated : Generated}

theorem verilog_eq_ok {table : LoweringTable} (h : d.verilog table v = .ok generated) :
    ∃ text, generated = d.generated text := by
  rw [verilog] at h
  split at h
  next => cases h
  next file _ =>
    obtain ⟨text, -, h⟩ := bind_eq_ok_iff.1 h
    split at h
    next => exact ⟨text, (Except.ok.inj h).symm⟩
    next =>
      split at h
      next spliced _ => exact ⟨spliced, (Except.ok.inj h).symm⟩
      next => cases h

theorem netlist_eq_ok (target : NetlistTarget) (h : d.netlist target v = .ok generated) :
    ∃ text, generated = d.generated text := by
  rw [netlist] at h
  split at h
  next => cases h
  next file _ =>
    obtain ⟨text, -, h⟩ := bind_eq_ok_iff.1 h
    exact ⟨text, (Except.ok.inj h).symm⟩

end PrecompiledDesign

namespace Build

/-- **Every answer of a design has the tables of its manifest.** -/
theorem tables_of_answer {d : PrecompiledDesign} {o : Options} {e : Equipment} {v : View}
    {generated : Generated} (h : answer d.generator o e v = .ok generated) :
    generated.signals = d.manifest.constraints ∧
      generated.commands = d.manifest.platformCommands := by
  have htext : ∃ text, generated = d.generated text := by
    rw [answer] at h
    split at h
    next => exact PrecompiledDesign.verilog_eq_ok h
    next => exact PrecompiledDesign.netlist_eq_ok (.xilinx o.device) h
  obtain ⟨text, rfl⟩ := htext
  exact ⟨rfl, rfl⟩

/-- The constraint file of the tables of a manifest. -/
def constraintsOf (m : Manifest) : String :=
  Ucf.render (m.signals.map SignalEntry.constraint)
    (m.clocks.map ClockEntry.command ++ m.commands)

/-- Where the constraints of a build are. -/
def Options.constraintPath (o : Options) : Path :=
  o.directory.child (o.name ++ ".ucf")

/-- A build that ended like this came past the writing of its constraints. -/
def PastConstraints (r : Except Failure Report) : Prop :=
  .runScript ∈ trace r ∨ .done ∈ trace r

/-- A build wrote one text to the constraint file, which is still there if the tools leave it
alone. -/
structure Constrained (o : Options) (tools : Tools) (h : Host) (text : String) (p : Progress) :
    Prop where
  written : writtenSince h p o.constraintPath.location = [text]
  kept : Keeps tools o.constraintPath.location →
    ∃ x, p.host.tree.lookup o.constraintPath.location = some (.file (.text text) x)

section

variable {g : Generator} {o options : Options} {e : Equipment} {h : Host} {p p' : Progress}

/-- What a build did that came past its constraints. -/
theorem constrained_of_advances {done : List Deed} (hp : Entered o h p)
    (habs : o.directory.isAbsolute = true) (hdone : done <+: deeds g o e p)
    (hgenerating : generating g o e p <+: done) {states : List BuildState} {files : List String}
    {calls : List (Invocation × Outcome)}
    (hadv : Advances o.directory e.tools p states files (done.filterMap Deed.written?) calls p')
    (previous : Location) :
    ∃ generated, design g o e p = .ok generated ∧
      writtenSince h (p'.leave previous) o.constraintPath.location =
        [constraintText generated] := by
  have hmem : constraintFile g o e p ∈ (generating g o e p).filterMap Deed.written? := by
    rw [filterMap_written?_generating]
    simp
  obtain ⟨text, htext, hwritten⟩ := writtenSince_of_mem hp habs hdone hadv
    ((hgenerating.filterMap Deed.written?).subset hmem) previous
  obtain ⟨generated, hgenerated, rfl⟩ := map_eq_ok_iff.1 htext
  exact ⟨generated, hgenerated, hwritten⟩

/-- **A build past its constraints wrote those that its design answered with.** -/
theorem run_constraints (hpast : PastConstraints (run g options e h).1) :
    ∃ generated v, answer g (options.within h) e v = .ok generated ∧
      writtenSince h (run g options e h).2 (options.within h).constraintPath.location =
        [constraintText generated] := by
  have habs := options.isAbsolute_within h
  generalize hout : run g options e h = out at hpast ⊢
  have hends : Ends g options e h out := hout ▸ run_ends g options e h
  cases hends with
  | refused hprepare =>
    rw [PastConstraints, trace_eq_nil (untraced_of_prepare hprepare).1] at hpast
    rcases hpast with hpast | hpast <;> cases hpast
  | outside hbuilding =>
    rw [PastConstraints, trace_eq_nil hbuilding] at hpast
    rcases hpast with hpast | hpast <;> cases hpast
  | reached hp hall =>
    obtain ⟨generated, hdesign, hwritten⟩ := constrained_of_advances hp habs List.prefix_rfl
      (List.prefix_append _ _) hall.advances h.directory
    exact ⟨generated, _, hdesign, hwritten⟩
  | @stopped p p' done rest d f hp hdeeds hfails =>
    have hdone : done <+: deeds g (options.within h) e p := ⟨d :: rest, hdeeds.symm⟩
    have hscript : .runScript ∈ done.filterMap Deed.state? := by
      rw [PastConstraints, trace_of_fails hp hfails] at hpast
      rcases hpast with hpast | hpast
      · simpa using hpast
      · have hmem : .done ∈ done.filterMap Deed.state? := by simpa using hpast
        exact absurd ((hdone.filterMap Deed.state?).subset hmem) done_notMem_states
    obtain ⟨_, hadv⟩ := hfails.advances
    obtain ⟨generated, hdesign, hwritten⟩ := constrained_of_advances hp habs hdone
      (generating_beginning hdone hscript) hadv h.directory
    exact ⟨generated, _, hdesign, hwritten⟩

/-- The one text that was written to a file is still there, if the tools leave the file alone. -/
theorem kept_of_written {l : Location} {text : String}
    (hwritten : writtenSince h (run g options e h).2 l = [text]) (hkeep : Keeps e.tools l) :
    ∃ x, (run g options e h).2.host.tree.lookup l = some (.file (.text text) x) := by
  obtain ⟨_, _, _, events, ha⟩ := run_account g options e h
  rw [writtenSince_eq ha.journal] at hwritten
  have hmem : text ∈ [text] := List.mem_singleton_self text
  rw [← hwritten] at hmem
  obtain ⟨w, hw, rfl⟩ := List.mem_map.1 hmem
  obtain ⟨hevent, hplace⟩ := List.mem_filter.1 hw
  rw [← of_decide_eq_true hplace] at hkeep ⊢
  exact ha.kept w.1 w.2 (mem_written?_iff.1 hevent) hkeep

end

/-- A build of a design with a manifest that came past its constraints. -/
theorem constrained_of_past {d : PrecompiledDesign} {options : Options} {e : Equipment} {h : Host}
    (hpast : PastConstraints (run d.generator options e h).1) :
    Constrained (options.within h) e.tools h (constraintsOf d.manifest)
      (run d.generator options e h).2 := by
  obtain ⟨generated, v, hanswer, hwritten⟩ := run_constraints hpast
  obtain ⟨hsignals, hcommands⟩ := tables_of_answer hanswer
  have htext : constraintText generated = constraintsOf d.manifest := by
    rw [constraintText, hsignals, hcommands]
    rfl
  rw [htext] at hwritten
  exact ⟨hwritten, kept_of_written hwritten⟩

/-- **The constraint file depends on the tables of the manifest only.** Two builds past their
constraints write the same text, whatever else is in the manifests and in all that the builds are
given. -/
theorem run_constrains {d d' : PrecompiledDesign} {options options' : Options}
    {e e' : Equipment} {h h' : Host}
    (hsignals : d'.manifest.signals = d.manifest.signals)
    (hclocks : d'.manifest.clocks = d.manifest.clocks)
    (hcommands : d'.manifest.commands = d.manifest.commands)
    (hpast : PastConstraints (run d.generator options e h).1)
    (hpast' : PastConstraints (run d'.generator options' e' h').1) :
    Constrained (options.within h) e.tools h (constraintsOf d.manifest)
      (run d.generator options e h).2 ∧
    Constrained (options'.within h') e'.tools h' (constraintsOf d.manifest)
      (run d'.generator options' e' h').2 := by
  have hsame : constraintsOf d'.manifest = constraintsOf d.manifest := by
    rw [constraintsOf, constraintsOf, hsignals, hclocks, hcommands]
  exact ⟨constrained_of_past hpast, hsame ▸ constrained_of_past hpast'⟩

/-- A design with both artifacts in `/p`. -/
def pairedDesign (sources : List String) : PrecompiledDesign where
  manifest := {
    design := ⟨⟨"xc6slx9"⟩, some ⟨"top.v"⟩, some ⟨"top.edif"⟩, sources, []⟩
    signals := [⟨"led", ["A1"], none, 0, none, none, none, [], []⟩]
    clocks := [⟨"clk", .finite false 5 1⟩]
    commands := ["CONFIG VCCAUX = 3.3;"]
    primitives := []
    synthesizer := none }
  root := ⟨"/p"⟩

def pairedHost : Host :=
  Host.start ⟨(FileTree.empty.plant ["p", "top.v"] (.file (.text "module top;\nendmodule\n")
    false)).plant ["p", "top.edif"] (.file (.text "(edif top)") false), ["p"]⟩ []

/-- A build that only generates. -/
def pairedVerilogBuild : Except Failure Report × Progress :=
  run (pairedDesign []).generator { Options.default ⟨"xc6slx9"⟩ with run := false }
    ⟨quiet, .empty, none⟩ pairedHost

/-- A build in another mode and another place, whose control script is ended by a signal. -/
def pairedNetlistBuild : Except Failure Report × Progress :=
  run (pairedDesign ["src/*.v"]).generator
    { Options.default ⟨"xc6slx9"⟩ with mode := .edif, source := false, directory := ⟨"out"⟩ }
    ⟨fun _ t => (t, .ok none), .xilinx, none⟩ pairedHost

theorem constrains_pairedDesign :
    pairedVerilogBuild.1.isOk = true ∧ pairedNetlistBuild.1.isOk = false ∧
      writtenSince pairedHost pairedVerilogBuild.2 ["p", "build", "top.ucf"] =
        [constraintsOf (pairedDesign []).manifest] ∧
      writtenSince pairedHost pairedNetlistBuild.2 ["p", "out", "top.ucf"] =
        [constraintsOf (pairedDesign []).manifest] := by
  have hpast : PastConstraints pairedVerilogBuild.1 := .inr (by decide +kernel)
  have hpast' : PastConstraints pairedNetlistBuild.1 := .inl (by decide +kernel)
  obtain ⟨hfirst, hsecond⟩ := run_constrains (by rfl) (by rfl) (by rfl) hpast hpast'
  exact ⟨by decide +kernel, by decide +kernel, hfirst.written, hsecond.written⟩

end Build

end FpgaFlow
