import FpgaFlow.Proofs.Build.Extension
import FpgaFlow.Proofs.Build.Flow

/-!
# From the written files to the bitstream

A build that writes its control script has performed everything that comes before it:
what it wrote is read off these deeds (`Placed`), and in the mode of the open
synthesizer this one was called, after the files that it reads were written
(`Synthesized`).

**Main statement** `run_flows`: the scripts that a build has written when it comes to
its control script close the way of its files, from the design to the bitstream in its
report.
-/

namespace FpgaFlow

namespace Build

/-- Names and texts as what deeds write. -/
def texts (files : List (String × String)) : List (String × Except Failure String) :=
  files.map fun f => (f.1, .ok f.2)

/-- The events wrote these files and no others, each at the place that its name leads to. -/
def Placed (directory : Path) (files : List (String × String)) (events : List Event) : Prop :=
  events.filterMap Event.written? = files.map fun f => ((directory.child f.1).location, f.2)

/-- The open synthesizer was called with its script, from the directory of the build, when the
script and everything that it reads were written. -/
def Synthesized (o : Options) (files : List (String × String)) (events : List Event) : Prop :=
  ∃ earlier later early call present late,
    files = earlier ++ later ∧ events = early ++ .ranTool call present (.ok (some 0)) :: late ∧
    Placed o.directory earlier early ∧ Placed o.directory later late ∧
    call.arguments = [o.name ++ ".ys"] ∧ call.directory = o.directory.location ∧
    ∀ q ∈ sheets o, (q.1, sheetText q.2) ∈ earlier ∧ Grounded (earlier.map Prod.fst) q.2

section

variable {directory : Path} {tools : Tools} {p p' : Progress} {ds : List Deed}

theorem exists_placed (habs : directory.isAbsolute = true)
    {writes : List (String × Except Failure String)} {ws : List (Location × String)}
    (h : List.Forall₂ (Leads directory) writes ws) :
    ∃ files : List (String × String), writes = texts files ∧
      ws = files.map fun f => ((directory.child f.1).location, f.2) := by
  induction h with
  | nil => exact ⟨[], rfl, rfl⟩
  | @cons w e _ _ hlead _ ih =>
    obtain ⟨files, rfl, rfl⟩ := ih
    obtain ⟨htext, v, hv⟩ := hlead
    have hplace := View.location_of_fileTarget (Path.isAbsolute_child habs w.1) hv
    refine ⟨(w.1, e.2) :: files, ?_, ?_⟩
    · exact congrArg (· :: texts files) (Prod.ext rfl htext)
    · rw [List.map_cons, ← hplace]

/-- What deeds wrote that were performed. -/
theorem Performs.placed (habs : directory.isAbsolute = true)
    (h : Performs directory tools p ds p') :
    ∃ files events, ds.filterMap Deed.written? = texts files ∧
      p'.host.journal = p.host.journal ++ events ∧ Placed directory files events := by
  obtain ⟨events, hdid, hleads, -⟩ := h.advances.host
  obtain ⟨files, hfiles, hplaced⟩ := exists_placed habs hleads
  exact ⟨files, events, hfiles, hdid.journal, hplaced⟩

theorem Placed.append {files files' : List (String × String)} {events events' : List Event}
    (h : Placed directory files events) (h' : Placed directory files' events') :
    Placed directory (files ++ files') (events ++ events') := by
  rw [Placed, List.filterMap_append, h, h', List.map_append]

theorem placed_madeDirectory (directory : Path) (ls : List Location) :
    Placed directory [] (ls.map .madeDirectory) :=
  filterMap_written?_madeDirectory ls

theorem placed_ranTool (directory : Path) (call : Invocation) (present : List String)
    (outcome : Outcome) : Placed directory [] [.ranTool call present outcome] :=
  rfl

theorem journal_of_call {c : Call}
    (h : ExceptT.run (Deed.perform directory tools (.call c)) p = (.ok (), p')) :
    ∃ present, p'.host.journal = p.host.journal ++
      [.ranTool (p.host.callOf c.program c.arguments) present (.ok (some 0))] := by
  rw [Deed.perform, run_act, Action.run_runSuccessfully] at h
  obtain ⟨hverdict, rfl⟩ := Prod.mk.inj h
  refine ⟨p.host.tree.fileNames p.host.directory, ?_⟩
  rw [← Tool.verdict_eq_ok_iff.1 hverdict]
  exact (Host.did_runTool tools p.host c.program c.arguments).journal

theorem journal_of_write (habs : directory.isAbsolute = true) {file : String}
    {text : Except Failure String}
    (h : ExceptT.run (Deed.perform directory tools (.write file text)) p = (.ok (), p')) :
    ∃ t events, text = .ok t ∧ Placed directory [] events ∧ p'.host.journal =
      p.host.journal ++ (events ++ [.wroteFile (directory.child file).location t]) := by
  rcases Deed.write_cases h with
    ⟨_, -, hr, -⟩ | ⟨t, made, rfl, hmakes, ⟨l, hl, -, rfl⟩ | ⟨_, hr, -⟩⟩
  · cases hr
  · obtain ⟨ls, hdid⟩ := hmakes.did tools
    refine ⟨t, ls.map .madeDirectory, rfl, placed_madeDirectory directory ls, ?_⟩
    rw [← View.location_of_fileTarget (Path.isAbsolute_child habs file) hl, ← List.append_assoc,
      ← hdid.journal]
    rfl
  · cases hr

end

/-! ### Before the control script -/

section

variable {g : Generator} {o : Options} {e : Equipment} {h : Host} {p p' : Progress}

/-- The deeds of a build before its control script is written. -/
def preparing (g : Generator) (o : Options) (e : Equipment) (p : Progress) : List Deed :=
  generating g o e p ++ [.enter .runScript, .await (settled (setup g o e p))]

theorem filterMap_written?_preparing (g : Generator) (o : Options) (e : Equipment) (p : Progress) :
    (preparing g o e p).filterMap Deed.written? =
      designFiles g o e p ++ [constraintFile g o e p] := by
  rw [preparing, List.filterMap_append, filterMap_written?_generating]
  exact List.append_nil _

/-- The call of the open synthesizer with its script. -/
def yosysCall (o : Options) (p : Progress) : Call :=
  ⟨.yosys, Action.yosysProgram p.host, [o.name ++ ".ys"]⟩

/-- The deeds of a build before it calls the open synthesizer. -/
def drafting (g : Generator) (o : Options) (e : Equipment) (p : Progress) : List Deed :=
  opening g o e ++ .await (settled (design g o e p)) ::
    (store (o.name ++ ".v") ((design g o e p).map Generated.text) ++
      [.enter .generateProject, .await (settled (yosysText o)),
        .write (o.name ++ ".ys") (yosysText o)])

theorem preparing_eq_of_yosys (hm : o.mode = .yosys) : preparing g o e p =
    drafting g o e p ++ .call (yosysCall o p) ::
      (.note [o.name ++ ".ys"] :: constraintDeeds o (design g o e p) ++
        [.enter .runScript, .await (settled (setup g o e p))]) := by
  simp [preparing, generating, drafting, body, projectDeeds, yosysCall, hm, Mode.usesVerilog]

/-- The files of the design are written before the call. -/
theorem filterMap_written?_drafting (hm : o.mode = .yosys) :
    (drafting g o e p).filterMap Deed.written? = designFiles g o e p := by
  rw [drafting, List.filterMap_append, filterMap_written?_opening, designFiles, hm]
  rfl

theorem mem_of_mem_texts {files : List (String × String)} {name text : String}
    (h : (name, .ok text) ∈ texts files) : (name, text) ∈ files := by
  obtain ⟨f, hf, heq⟩ := List.mem_map.1 h
  obtain ⟨rfl, htext⟩ := Prod.mk.inj heq
  rwa [← Except.ok.inj htext]

theorem map_fst_texts (files : List (String × String)) :
    (texts files).map Prod.fst = files.map Prod.fst := by
  rw [texts, List.map_map]
  rfl

/-- The names of what was written are the names of the files of a build. -/
theorem map_fst_of_written {files : List (String × String)}
    (hfiles : designFiles g o e p ++ [constraintFile g o e p] = texts files) :
    files.map Prod.fst = fileNames o.mode o.name false := by
  rw [← map_fst_texts, ← hfiles]
  unfold designFiles fileNames
  cases o.mode <;> rfl

/-- The scripts of a build are among the files of its design. -/
theorem mem_designFiles_of_mem_sheets {q : String × Sheet} (hq : q ∈ sheets o) :
    (q.1, .ok (sheetText q.2)) ∈ designFiles g o e p := by
  rw [sheets] at hq
  rw [designFiles]
  cases hm : o.mode with
  | xst =>
    rw [hm] at hq
    rcases List.mem_cons.1 hq with rfl | hq
    · simp [projectSheet_text]
    · obtain rfl := List.mem_singleton.1 hq
      simp [runScriptSheet_text]
  | yosys =>
    rw [hm] at hq
    cases ha : o.device.architecture with
    | error f =>
      rw [ha] at hq
      cases hq
    | ok architecture =>
      rw [ha] at hq
      obtain rfl := List.mem_singleton.1 hq
      simp [yosysSheet_text o ha]
  | edif =>
    rw [hm] at hq
    cases hq
  | mist =>
    rw [hm] at hq
    cases hq

theorem architecture_of_yosysText {text : String} (h : yosysText o = .ok text) :
    ∃ a, o.device.architecture = .ok a := by
  cases ha : o.device.architecture with
  | ok a => exact ⟨a, rfl⟩
  | error f =>
    rw [yosysText, YosysScript.render, ha] at h
    cases h

/-- A device has an architecture when the script of the open synthesizer was written. -/
theorem architecture_of_written {files : List (String × String)}
    (hfiles : designFiles g o e p ⊆ texts files) (hm : o.mode = .yosys) :
    ∃ a, o.device.architecture = .ok a := by
  have hmem : (o.name ++ ".ys", yosysText o) ∈ designFiles g o e p := by
    rw [designFiles, hm]
    exact List.mem_cons_of_mem _ (List.mem_singleton_self _)
  obtain ⟨f, -, heq⟩ := List.mem_map.1 (hfiles hmem)
  exact architecture_of_yosysText (Prod.mk.inj heq).2.symm

/-- A script of the open synthesizer reads files of the design. -/
theorem grounded_of_written {files : List (String × String)}
    (hfiles : designFiles g o e p = texts files) (hm : o.mode = .yosys) {q : String × Sheet}
    (hq : q ∈ sheets o) : Grounded (files.map Prod.fst) q.2 := by
  refine grounded_of_mem_sheets (fun _ => ?_) (fun hxst => ?_) hq
  · rw [← map_fst_texts, ← hfiles, designFiles, hm]
    exact List.mem_cons_self
  · rw [hm] at hxst
    cases hxst

/-- The open synthesizer was called by a build that came to its control script. -/
theorem synthesized_preparing (habs : o.directory.isAbsolute = true) (hp : Entered o h p)
    (hm : o.mode = .yosys)
    (hperforms : Performs o.directory e.tools p (preparing g o e p) p') :
    ∃ files before, p'.host.journal = h.journal ++ before ∧ Placed o.directory files before ∧
      (preparing g o e p).filterMap Deed.written? = texts files ∧ Synthesized o files before := by
  obtain ⟨ls, hmade, -⟩ := hp.made e.tools
  rw [preparing_eq_of_yosys hm] at hperforms ⊢
  obtain ⟨p₁, hdrafting, hrest⟩ := hperforms.split
  cases hrest with
  | cons hcall hlater =>
    obtain ⟨earlier, early, hearlier, hjournal₁, hplaced₁⟩ := hdrafting.placed habs
    obtain ⟨present, hjournal₂⟩ := journal_of_call hcall
    obtain ⟨later, late, hlast, hjournal₃, hplaced₂⟩ := hlater.placed habs
    have hearly := (placed_madeDirectory o.directory ls).append hplaced₁
    have hcalled := placed_ranTool o.directory
      (p₁.host.callOf (yosysCall o p).program (yosysCall o p).arguments) present (.ok (some 0))
    have hdesign : designFiles g o e p = texts earlier :=
      (filterMap_written?_drafting hm).symm.trans hearlier
    refine ⟨earlier ++ later, _, ?_, hearly.append (hcalled.append hplaced₂), ?_, earlier, later,
      _, _, present, _, rfl, rfl, hearly, hplaced₂, rfl, ?_,
      fun q hq => ⟨?_, grounded_of_written hdesign hm hq⟩⟩
    · rw [hjournal₃, hjournal₂, hjournal₁, hmade]
      simp only [List.append_assoc]
    · rw [List.filterMap_append, hearlier, texts, texts, List.map_append]
      exact congrArg (_ ++ ·) hlast
    · show p₁.host.directory = o.directory.location
      rw [hdrafting.advances.directory_eq]
      exact View.location_of_resolve habs hp.resolve
    · exact mem_of_mem_texts (hdesign ▸ mem_designFiles_of_mem_sheets hq)

/-- What a build wrote that came to its control script. -/
theorem placed_preparing (habs : o.directory.isAbsolute = true) (hp : Entered o h p)
    (hperforms : Performs o.directory e.tools p (preparing g o e p) p') :
    ∃ files before, p'.host.journal = h.journal ++ before ∧ Placed o.directory files before ∧
      (preparing g o e p).filterMap Deed.written? = texts files ∧
      (o.mode = .yosys → Synthesized o files before) := by
  by_cases hm : o.mode = .yosys
  · obtain ⟨files, before, hjournal, hplaced, hfiles, hyosys⟩ :=
      synthesized_preparing habs hp hm hperforms
    exact ⟨files, before, hjournal, hplaced, hfiles, fun _ => hyosys⟩
  · obtain ⟨ls, hmade, -⟩ := hp.made e.tools
    obtain ⟨files, events, hfiles, hjournal, hplaced⟩ := hperforms.placed habs
    refine ⟨files, _, ?_, (placed_madeDirectory o.directory ls).append hplaced, hfiles,
      fun h => absurd h hm⟩
    rw [hjournal, hmade, List.append_assoc]

/-- What a build did that wrote its control script: the files before it, the call of the open
synthesizer in its mode, and the script. -/
def Scripted (o : Options) (h h' : Host) (files : List (String × String)) : Prop :=
  ∃ before commands after, h'.journal = h.journal ++ (before ++
      .wroteFile o.scriptPath.location (sheetText (controlSheet o commands)) :: after) ∧
    Placed o.directory files before ∧ (o.mode = .yosys → Synthesized o files before)

/-- The deeds up to the control script. -/
def upToScript (g : Generator) (o : Options) (e : Equipment) (p : Progress) : List Deed :=
  preparing g o e p ++
    [.write (ControlScript.fileName o.name) ((setup g o e p).map (scriptText o))]

/-- Deeds that wrote the control script go at least up to it. -/
theorem upToScript_of_written {done : List Deed} (hdone : done <+: deeds g o e p)
    {w : String × Except Failure String} (hw : w ∈ done.filterMap Deed.written?) {v u : View}
    {l : Location} (hv : v.fileTarget (o.directory.child w.1) = .ok l)
    (hu : u.fileTarget o.scriptPath = .ok l) :
    o.run = true ∧ upToScript g o e p <+: done := by
  have hnot : ¬ done <+: preparing g o e p := by
    intro hbefore
    have hfile := (hbefore.filterMap Deed.written?).subset hw
    rw [filterMap_written?_preparing] at hfile
    exact not_script_of_mem hfile hv hu
  cases hrun : o.run with
  | true =>
    have hdeeds : deeds g o e p = preparing g o e p ++
        .write (ControlScript.fileName o.name) ((setup g o e p).map (scriptText o)) ::
          [.note [ControlScript.fileName o.name], .call (scriptCall o)] := by
      simp [deeds, hrun, preparing, toolDeeds, store]
    rw [hdeeds] at hdone
    exact ⟨rfl, (concat_or_beginning hdone).resolve_right hnot⟩
  | false =>
    have hdeeds : deeds g o e p = generating g o e p := by simp [deeds, hrun]
    rw [hdeeds] at hdone
    exact absurd (hdone.trans (List.prefix_append _ _)) hnot

theorem Placed.append_idle {files : List (String × String)} {events idle : List Event}
    {directory : Path} (h : Placed directory files events) (hidle : Placed directory [] idle) :
    Placed directory files (events ++ idle) := by
  have hboth := h.append hidle
  rwa [List.append_nil] at hboth

theorem Synthesized.append_idle {files : List (String × String)} {events idle : List Event}
    (hs : Synthesized o files events) (hidle : Placed o.directory [] idle) :
    Synthesized o files (events ++ idle) := by
  obtain ⟨earlier, later, early, call, present, late, hfiles, rfl, hearly, hlate, hrest⟩ := hs
  refine ⟨earlier, later, early, call, present, late ++ idle, hfiles, ?_, hearly,
    hlate.append_idle hidle, hrest⟩
  rw [List.append_assoc, List.cons_append]

theorem exists_commands {setup : Except Failure (List String)} {text : String}
    (h : setup.map (scriptText o) = .ok text) : ∃ commands, text = scriptText o commands := by
  cases setup with
  | error f => cases h
  | ok commands => exact ⟨commands, (Except.ok.inj h).symm⟩

/-- What deeds did that go at least up to the control script. -/
theorem scripted_of_performs (habs : o.directory.isAbsolute = true) (hp : Entered o h p)
    {done : List Deed} (hdone : upToScript g o e p <+: done)
    (hperforms : Performs o.directory e.tools p done p') :
    ∃ files, Scripted o h p'.host files ∧
      designFiles g o e p ++ [constraintFile g o e p] = texts files := by
  obtain ⟨rest, rfl⟩ := hdone
  obtain ⟨p₂, hup, hrest⟩ := hperforms.split
  obtain ⟨p₁, hbefore, hscript⟩ := hup.split
  cases hscript with
  | cons hwrite hnil =>
    cases hnil
    obtain ⟨files, before, hjournal₁, hplaced, hfiles, hyosys⟩ := placed_preparing habs hp hbefore
    obtain ⟨text, made, htext, hmade, hjournal₂⟩ := journal_of_write habs hwrite
    obtain ⟨_, after, -, hjournal₃, -⟩ := hrest.placed habs
    obtain ⟨commands, rfl⟩ := exists_commands htext
    rw [filterMap_written?_preparing] at hfiles
    refine ⟨files, ⟨before ++ made, commands, after, ?_, hplaced.append_idle hmade,
      fun hm => (hyosys hm).append_idle hmade⟩, hfiles⟩
    rw [hjournal₃, hjournal₂, hjournal₁, controlSheet_text]
    simp only [List.append_assoc, List.cons_append, List.nil_append]
    rfl

theorem Scripted.later {h h' h'' : Host} {files : List (String × String)}
    (hs : Scripted o h h' files) {events : List Event}
    (hjournal : h''.journal = h'.journal ++ events) : Scripted o h h'' files := by
  obtain ⟨before, commands, after, hbefore, hrest⟩ := hs
  refine ⟨before, commands, after ++ events, ?_, hrest⟩
  rw [hjournal, hbefore]
  simp only [List.append_assoc, List.cons_append]

/-- What was written closes the way of the files. -/
theorem flows_of_written {files : List (String × String)}
    (hfiles : designFiles g o e p ++ [constraintFile g o e p] = texts files) :
    (∀ q ∈ sheets o, (q.1, sheetText q.2) ∈ files) ∧
      Flows o.mode (sheets o) (files.map Prod.fst) (steps o) (o.name ++ ".bit") := by
  have hsub : designFiles g o e p ⊆ texts files := by
    rw [← hfiles]
    exact List.subset_append_left _ _
  refine ⟨fun q hq => mem_of_mem_texts (hsub (mem_designFiles_of_mem_sheets hq)), ?_⟩
  rw [map_fst_of_written hfiles]
  exact flows (architecture_of_written hsub)

/-- A build that wrote its control script in the deeds `done`, and did something after them. -/
theorem exists_scripted (habs : o.directory.isAbsolute = true) (hp : Entered o h p)
    {done : List Deed} (hdone : done <+: deeds g o e p) {p₁ : Progress}
    (hperforms : Performs o.directory e.tools p done p₁) {states : List BuildState}
    {files : List String} {calls : List (Invocation × Outcome)}
    (hadv : Advances o.directory e.tools p states files (done.filterMap Deed.written?) calls p')
    {events : List Event} (hlater : p'.host.journal = p₁.host.journal ++ events)
    {previous : Location} (hw : Wrote h (p'.leave previous) o.scriptPath) :
    o.run = true ∧ ∃ files, Scripted o h (p'.leave previous).host files ∧
      (∀ q ∈ sheets o, (q.1, sheetText q.2) ∈ files) ∧
      Flows o.mode (sheets o) (files.map Prod.fst) (steps o) (o.name ++ ".bit") := by
  obtain ⟨w, hmem, v, u, l, hv, hu⟩ := written_of_wrote hp hadv hw
  obtain ⟨hrun, hup⟩ := upToScript_of_written hdone hmem hv hu
  obtain ⟨files, hscripted, hfiles⟩ := scripted_of_performs habs hp hup hperforms
  have hjournal : (p'.leave previous).host.journal = p₁.host.journal ++ events := by
    rw [journal_leave, hlater]
  exact ⟨hrun, files, hscripted.later hjournal, flows_of_written hfiles⟩

end

/-- **The generated files close the way from the design to the bitstream.** When a build writes its
control script, it has written before it all scripts that its tools read. Its steps are the call of
the open synthesizer, in the mode of this one, and the tools of the control script. Every file that
a step reads is written or made by a step before it, and the last step makes the bitstream of the
report. Only the words of the build itself count, whatever the options of the tools are. -/
theorem run_flows (g : Generator) (options : Options) (e : Equipment) (h : Host)
    (hw : Wrote h (run g options e h).2 (options.within h).scriptPath) :
    ∃ files, Scripted (options.within h) h (run g options e h).2.host files ∧
      (∀ q ∈ sheets (options.within h), (q.1, sheetText q.2) ∈ files) ∧
      Flows options.mode (sheets (options.within h)) (files.map Prod.fst)
        (steps (options.within h)) (options.name ++ ".bit") ∧
      ∀ r, (run g options e h).1 = .ok r →
        r.bitstream = some ((options.within h).directory.child (options.name ++ ".bit")) := by
  have habs := options.isAbsolute_within h
  have hends := run_ends g options e h
  revert hw hends
  generalize run g options e h = out
  intro hw hends
  cases hends with
  | refused hprepare =>
    have hm : h.Makes [] (Progress.start h).host := .refl h
    exact absurd hw (not_wrote_of_makes hm)
  | outside _ _ hm _ => exact absurd hw (not_wrote_of_makes hm)
  | @reached p p' hp hall =>
    obtain ⟨hrun, files, hscripted, hsheets, hflows⟩ := exists_scripted habs hp List.prefix_rfl
      hall hall.advances (List.append_nil _).symm hw
    obtain ⟨-, -, hbitstream⟩ := follows_of_performs hp hall
    refine ⟨files, hscripted, hsheets, hflows, fun r hr => ?_⟩
    rw [← Except.ok.inj hr, hbitstream, if_pos hrun]
    rfl
  | @stopped p p' done rest d f hp hdeeds hfails =>
    obtain ⟨_, hadv⟩ := hfails.advances
    obtain ⟨p₁, hdone, hd⟩ := hfails
    have hbeginning : done <+: deeds g (options.within h) e p := ⟨d :: rest, hdeeds.symm⟩
    obtain ⟨events, hlater⟩ := exists_events_of_error hd
    obtain ⟨-, files, hscripted, hsheets, hflows⟩ := exists_scripted habs hp hbeginning hdone hadv
      hlater hw
    exact ⟨files, hscripted, hsheets, hflows, fun r hr => by cases hr⟩

/-- An empty disk. -/
def emptyHost : Host :=
  Host.start ⟨FileTree.empty, []⟩ []

/-- The options of a build with the open synthesizer, from tools that are set up already. -/
def toolOptions : Options :=
  { Options.default ⟨"xc6slx9"⟩ with mode := .yosys, source := false }

/-- A build that runs its tools. -/
def toolBuild : Except Failure Report × Progress :=
  run (constant "module top; endmodule") toolOptions ⟨quiet, .empty, none⟩ emptyHost

theorem wrote_of_mem {h : Host} (hjournal : h.journal = []) {p : Progress} {v : View} {file : Path}
    (hmem : ∃ w ∈ p.host.journal.filterMap Event.written?,
      (v.fileTarget file).toOption = some w.1) : Wrote h p file := by
  obtain ⟨⟨l, text⟩, hw, hv⟩ := hmem
  refine ⟨p.host.journal, l, text, ?_, mem_written?_iff.1 hw, v, ?_⟩
  · rw [hjournal, List.nil_append]
  · cases ht : v.fileTarget file with
    | error f =>
      rw [ht] at hv
      cases hv
    | ok m =>
      rw [ht] at hv
      rw [Option.some.inj hv]

theorem flows_of_toolBuild :
    Wrote emptyHost toolBuild.2 (toolOptions.within emptyHost).scriptPath ∧
    (∃ files, Scripted (toolOptions.within emptyHost) emptyHost toolBuild.2.host files ∧
      Flows .yosys (sheets (toolOptions.within emptyHost)) (files.map Prod.fst)
        (steps (toolOptions.within emptyHost)) "top.bit") ∧
    match toolBuild with
    | (.ok r, _) => r.bitstream = some ⟨"/build/top.bit"⟩
    | (.error _, _) => False := by
  have hw : Wrote emptyHost toolBuild.2 (toolOptions.within emptyHost).scriptPath :=
    wrote_of_mem (v := toolBuild.2.host.toView) rfl (by decide +kernel)
  obtain ⟨files, hscripted, -, hflows, hbitstream⟩ := run_flows (constant "module top; endmodule")
    toolOptions ⟨quiet, .empty, none⟩ emptyHost hw
  refine ⟨hw, ⟨files, hscripted, hflows⟩, ?_⟩
  have hok : toolBuild.1.isOk = true := by decide +kernel
  rw [← toolBuild] at hbitstream
  revert hbitstream hok
  cases toolBuild with
  | mk r p =>
    cases r with
    | ok r => exact fun hbitstream _ => hbitstream r rfl
    | error f =>
      intro _ hok
      cases hok

end Build

end FpgaFlow
