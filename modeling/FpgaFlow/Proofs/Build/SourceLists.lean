import FpgaFlow.Proofs.Build.Constraints
import FpgaFlow.Proofs.Text.Lines

/-!
# The sources of the two synthesizers

The project of the vendor's synthesizer and the script of the open one name their
sources in forms of their own.  Both are read back here line by line
(`projectSource?`, `readSource?`), and both give the sources of the build in their
order.

**Main statement** `backends_read_alike`: in both modes the synthesizer is given the
further sources, made absolute, and the top module last, and the directories of
included files in their order.
-/

namespace FpgaFlow

/-- The language that a name stands for. -/
def Language.ofName? (name : List Char) : Option Language :=
  [verilog, vhdl].find? fun language => language.name.toList = name

/-- The source that a line of a project names. -/
def projectSource? (line : List Char) : Option SourceFile := do
  let (name, path) ← Text.cutAt " work ".toList line
  let language ← Language.ofName? name
  return ⟨⟨String.ofList path⟩, language⟩

/-- Whether a line of a script reads a file. -/
def readsFile (line : List Char) : Bool :=
  "read_".toList.isPrefixOf line

/-- A text without what it has to begin with. -/
def afterPrefix? (front text : List Char) : Option (List Char) :=
  if front.isPrefixOf text then some (text.drop front.length) else none

/-- The source that a line of a script reads, behind one flag per directory of included files. -/
def readSource? (includes : List Path) (line : List Char) : Option SourceFile := do
  let command ← afterPrefix? "read_".toList line
  let language ← Language.ofName? (command.takeWhile (· ≠ ' '))
  let path ← afterPrefix? (includes.flatMap (fun p => " -I".toList ++ p.text.toList) ++ [' '])
    (command.dropWhile (· ≠ ' '))
  return ⟨⟨String.ofList path⟩, language⟩

namespace Language

theorem ofName?_name (l : Language) : ofName? l.name.toList = some l := by
  cases l <;> decide

theorem blank_notMem_name (l : Language) : ' ' ∉ l.name.toList := by
  cases l <;> decide

theorem newline_notMem_name (l : Language) : '\n' ∉ l.name.toList := by
  cases l <;> decide

end Language

theorem afterPrefix?_append (front rest : List Char) :
    afterPrefix? front (front ++ rest) = some rest := by
  have hprefix : front.isPrefixOf (front ++ rest) = true :=
    List.isPrefixOf_iff_prefix.2 (List.prefix_append front rest)
  rw [afterPrefix?, if_pos hprefix, List.drop_left]

/-! ### Reading back what is written -/

theorem projectSource?_sourceLine (s : SourceFile) :
    projectSource? (s.language.name ++ " work " ++ s.path.text).toList = some s := by
  have hcut : Text.cutAt " work ".toList (s.language.name ++ " work " ++ s.path.text).toList =
      some (s.language.name.toList, s.path.text.toList) := by
    rw [String.toList_append, String.toList_append]
    cases s.language <;> rfl
  rw [projectSource?, hcut]
  simp [Language.ofName?_name]

theorem toList_includeFlags (includes : List Path) :
    (YosysScript.includeFlags includes).toList =
      includes.flatMap fun p => " -I".toList ++ p.text.toList := by
  induction includes with
  | nil => rfl
  | cons p ps ih =>
    rw [YosysScript.includeFlags, List.map_cons, String.join_cons, ← YosysScript.includeFlags,
      String.toList_append, String.toList_append, ih]
    rfl

/-- What follows the command of a reading line begins with a blank. -/
theorem flags_eq_cons (includes : List Path) (path : List Char) :
    ∃ rest, includes.flatMap (fun p => " -I".toList ++ p.text.toList) ++ ' ' :: path =
      ' ' :: rest := by
  cases includes with
  | nil => exact ⟨_, rfl⟩
  | cons p ps => exact ⟨_, rfl⟩

theorem readSource?_readLine (includes : List Path) (s : SourceFile) :
    readSource? includes ("read_" ++ s.language.name ++ YosysScript.includeFlags includes ++ " " ++
      s.path.text).toList = some s := by
  have hline : ("read_" ++ s.language.name ++ YosysScript.includeFlags includes ++ " " ++
      s.path.text).toList = "read_".toList ++ (s.language.name.toList ++
        (includes.flatMap (fun p => " -I".toList ++ p.text.toList) ++
          ' ' :: s.path.text.toList)) := by
    simp [toList_includeFlags]
  obtain ⟨rest, hrest⟩ := flags_eq_cons includes s.path.text.toList
  have hname : ∀ c ∈ s.language.name.toList, (c ≠ ' ' : Bool) = true := by
    intro c hc
    have hne : c ≠ ' ' := ne_of_mem_of_not_mem hc s.language.blank_notMem_name
    simpa using hne
  have htake : (s.language.name.toList ++ ' ' :: rest).takeWhile (· ≠ ' ') =
      s.language.name.toList := by
    rw [List.takeWhile_append_of_pos hname]
    simp
  have hdrop : (s.language.name.toList ++ ' ' :: rest).dropWhile (· ≠ ' ') = ' ' :: rest := by
    rw [List.dropWhile_append_of_pos hname]
    simp
  have hflags : ' ' :: rest =
      (includes.flatMap (fun p => " -I".toList ++ p.text.toList) ++ [' ']) ++
        s.path.text.toList := by
    rw [← hrest, List.append_assoc]
    rfl
  rw [readSource?, hline, afterPrefix?_append, Option.bind_eq_bind, Option.bind_some, hrest, htake,
    hdrop, Language.ofName?_name, hflags, afterPrefix?_append]
  simp

/-! ### Whole files -/

theorem notMem_absolutize {c : Char} (hc : c ≠ '/') {base p : Path} (hbase : c ∉ base.text.toList)
    (hp : c ∉ p.text.toList) : c ∉ (Path.absolutize base p).text.toList := by
  rw [Path.absolutize, Path.join]
  split
  · exact hp
  · split
    · exact hp
    · split
      · simp [hbase, hp]
      · simp [hbase, hp, hc]

/-- No path of a source breaks its line. -/
def Unbroken (sources : List SourceFile) : Prop :=
  ∀ s ∈ sources, '\n' ∉ s.path.text.toList

section

variable {sources : List SourceFile} {includes : List Path} {name : String}

/-- **The list of the sources of a project can be read back.** -/
theorem projectSource?_sourceList (h : Unbroken sources) :
    (Text.lines (XstProject.sourceList sources)).map projectSource? = sources.map some := by
  have hline : ∀ s ∈ sources, '\n' ∉ (s.language.name ++ " work " ++ s.path.text).toList :=
    fun s hs => newline_notMem_append
      (newline_notMem_append s.language.newline_notMem_name (by decide)) (h s hs)
  have hwritten : ∀ s, XstProject.sourceLine s =
      s.language.name ++ " work " ++ s.path.text ++ "\n" := fun _ => rfl
  have hlines := Text.lines_join hwritten hline ""
  rw [String.append_empty] at hlines
  rw [XstProject.sourceList, hlines, List.map_append, List.map_map]
  have hnone : Text.lines "" = [] := rfl
  rw [hnone, List.map_nil, List.append_nil]
  exact List.map_congr_left fun s _ => projectSource?_sourceLine s

/-- The run script of a project has one more line for each directory of included files. -/
theorem lines_runScript (device : Device) (options : String)
    (h : ∀ p ∈ includes, '\n' ∉ p.text.toList) :
    Text.lines (XstProject.runScript device includes name options) =
      Text.lines (XstProject.runScript device [] name options) ++
        includes.map fun p => ("-vlgincdir " ++ p.text).toList := by
  have hline : ∀ p ∈ includes, '\n' ∉ ("-vlgincdir " ++ p.text).toList :=
    fun p hp => newline_notMem_append (by decide) (h p hp)
  have hwritten : ∀ p, XstProject.includeLine p = "-vlgincdir " ++ p.text ++ "\n" := fun _ => rfl
  have hlines := Text.lines_join hwritten hline ""
  rw [String.append_empty] at hlines
  have hnone : Text.lines (String.join (([] : List Path).map XstProject.includeLine)) = [] := rfl
  unfold XstProject.runScript
  rw [Text.lines_append, Text.lines_append, hnone, hlines, List.append_nil]
  exact congrArg _ (List.append_nil _)

theorem newline_notMem_architecture {device : Device} {architecture : String}
    (h : device.architecture = .ok architecture) : '\n' ∉ architecture.toList := by
  rw [Device.architecture] at h
  cases hfound : Device.architectures.lookup (device.familyCode?.getD "") with
  | none =>
    rw [hfound] at h
    cases h
  | some found =>
    rw [hfound] at h
    obtain rfl := Except.ok.inj h
    have hall : ∀ a ∈ Device.architectures, '\n' ∉ a.2.toList := by decide
    obtain ⟨before, after, hmem, -⟩ := List.lookup_eq_some_iff.1 hfound
    exact hall (device.familyCode?.getD "", found) (by rw [hmem]; simp)

/-- The lines after the reading ones do not read. -/
theorem filter_synthesis {architecture : String} (harchitecture : '\n' ∉ architecture.toList)
    (hname : '\n' ∉ name.toList) :
    (Text.lines (YosysScript.synthesis architecture name)).filter readsFile = [] := by
  have hlast : '\n' ∉ ("synth_xilinx -arch " ++ architecture ++ " -top top -edif " ++ name ++
      ".edif").toList :=
    newline_notMem_append (newline_notMem_append (newline_notMem_append
      (newline_notMem_append (by decide) harchitecture) (by decide)) hname) (by decide)
  have htext : YosysScript.synthesis architecture name = "hierarchy -check -top top" ++ "\n" ++
      ("proc; memory; opt; fsm; opt" ++ "\n" ++ ("synth_xilinx -arch " ++ architecture ++
        " -top top -edif " ++ name ++ ".edif")) := by
    unfold YosysScript.synthesis
    refine String.toList_inj.1 ?_
    simp
  rw [htext, Text.lines_cons (by decide), Text.lines_cons (by decide),
    Text.lines_single hlast (by simp)]
  simp [readsFile]

/-- The reading lines of a script are those of the sources. -/
theorem filter_readsFile_render {device : Device} {architecture text : String}
    (harchitecture : device.architecture = .ok architecture) (hsources : Unbroken sources)
    (hincludes : ∀ p ∈ includes, '\n' ∉ p.text.toList) (hname : '\n' ∉ name.toList)
    (htext : YosysScript.render device sources includes name = .ok text) :
    (Text.lines text).filter readsFile = sources.map fun s => ("read_" ++ s.language.name ++
      YosysScript.includeFlags includes ++ " " ++ s.path.text).toList := by
  have hflags : '\n' ∉ (YosysScript.includeFlags includes).toList := by
    rw [toList_includeFlags, List.mem_flatMap]
    rintro ⟨p, hp, hmem⟩
    exact hincludes p hp (by simpa using hmem)
  have hline : ∀ s ∈ sources, '\n' ∉ ("read_" ++ s.language.name ++
      YosysScript.includeFlags includes ++ " " ++ s.path.text).toList :=
    fun s hs => newline_notMem_append (newline_notMem_append (newline_notMem_append
      (newline_notMem_append (by decide) s.language.newline_notMem_name) hflags) (by decide))
      (hsources s hs)
  have hwritten : ∀ s, YosysScript.readLine includes s = "read_" ++ s.language.name ++
      YosysScript.includeFlags includes ++ " " ++ s.path.text ++ "\n" := fun _ => rfl
  have hreads : ∀ line ∈ sources.map fun s => ("read_" ++ s.language.name ++
      YosysScript.includeFlags includes ++ " " ++ s.path.text).toList,
      readsFile line = true := by
    intro line hmem
    obtain ⟨s, -, rfl⟩ := List.mem_map.1 hmem
    simp [readsFile]
  have hrender : text = String.join (sources.map (YosysScript.readLine includes)) ++
      YosysScript.synthesis architecture name := by
    rw [YosysScript.render, harchitecture] at htext
    exact (Except.ok.inj htext).symm
  rw [hrender, Text.lines_join hwritten hline, List.filter_append,
    filter_synthesis (newline_notMem_architecture harchitecture) hname, List.append_nil,
    List.filter_eq_self.2 hreads]

/-- **The reading lines of a script can be read back.** -/
theorem readSource?_render {device : Device} {architecture text : String}
    (harchitecture : device.architecture = .ok architecture) (hsources : Unbroken sources)
    (hincludes : ∀ p ∈ includes, '\n' ∉ p.text.toList) (hname : '\n' ∉ name.toList)
    (htext : YosysScript.render device sources includes name = .ok text) :
    ((Text.lines text).filter readsFile).map (readSource? includes) = sources.map some := by
  rw [filter_readsFile_render harchitecture hsources hincludes hname htext, List.map_map]
  exact List.map_congr_left fun s _ => readSource?_readLine includes s

end

namespace Build

/-- What became of a text that a build writes before its constraints: it was written once and no
other was, or the build failed before it was written. -/
structure Delivers (h : Host) (out : Except Failure Report × Progress) (file : Path)
    (text : String) : Prop where
  once : writtenSince h out.2 file.location = [] ∨ writtenSince h out.2 file.location = [text]
  sure : .writeConstraints ∈ trace out.1 → writtenSince h out.2 file.location = [text]

section

variable {g : Generator} {o : Options} {e : Equipment} {h : Host} {p p' : Progress}

/-- A file of a build is known by its extension. -/
theorem eq_of_extended {w w' : String × Except Failure String} (hw : w ∈ artifacts g o e p)
    (hw' : w' ∈ artifacts g o e p) {ext : String} (hext : View.Extended w.1 ext)
    (hext' : View.Extended w'.1 ext) : w = w' := by
  have hnever {a b : String × Except Failure String} {x y : String} (hx : View.Extended a.1 x)
      (hy : View.Extended b.1 y) (hne : x ≠ y) {ext : String} (ha : View.Extended a.1 ext) :
      ¬ View.Extended b.1 ext := by
    intro hb
    have hxe : x = ext := String.toList_inj.1 (Option.some.inj (hx.ending.symm.trans ha.ending))
    have hye : y = ext := String.toList_inj.1 (Option.some.inj (hy.ending.symm.trans hb.ending))
    exact hne (hxe.trans hye.symm)
  have hall := extended_artifacts g o e p
  have hnodup := endings_nodup o.mode o.run
  refine List.Pairwise.forall_of_forall_of_flip (R := fun a b =>
    ∀ ext, View.Extended a.1 ext → View.Extended b.1 ext → a = b) (fun _ _ _ _ _ => rfl)
    (pairwise_of_forall₂ hall hnodup fun _ _ _ _ hx hy hne _ ha hb =>
      absurd hb (hnever hx hy hne ha))
    (pairwise_of_forall₂ hall hnodup fun _ _ _ _ hx hy hne _ hb ha =>
      absurd hb (hnever hx hy hne ha)) hw hw' ext hext hext'

/-- A file that was not written is not in the place of one that was. -/
theorem avoids_of_notMem {file : String} {text : Except Failure String}
    (hfile : (file, text) ∈ artifacts g o e p) {done : List Deed} (hdone : done <+: deeds g o e p)
    (hnot : (file, text) ∉ done.filterMap Deed.written?) :
    ∀ w ∈ done.filterMap Deed.written?, Avoids o.directory (o.directory.child file).location w := by
  intro w hw v hv
  have hmem : w ∈ artifacts g o e p := by
    rw [← filterMap_written?_deeds]
    exact (hdone.filterMap Deed.written?).subset hw
  obtain ⟨ext, hext, hextended⟩ := mem_right_of_forall₂ (extended_artifacts g o e p) hmem
  obtain ⟨ext', hext', hextended'⟩ := mem_right_of_forall₂ (extended_artifacts g o e p) hfile
  have hplace := View.endingAt_location hextended' (ne_empty_of_mem_endings hext') o.directory
  rw [View.ending_of_fileTarget hextended hv, Option.some.injEq, String.toList_inj] at hplace
  rw [hplace] at hextended
  exact hnot (eq_of_extended hmem hfile hextended hextended' ▸ hw)

/-- A build in the state of its constraints wrote the files of its design. -/
theorem mem_of_writeConstraints {w : String × Except Failure String}
    (hw : w ∈ designFiles g o e p) {done : List Deed} (hdone : done <+: deeds g o e p)
    (hstate : .writeConstraints ∈ done.filterMap Deed.state?) :
    w ∈ done.filterMap Deed.written? := by
  have hsplit : deeds g o e p =
      (opening g o e ++ body o (Action.yosysProgram p.host) (design g o e p)) ++
        .enter .writeConstraints :: (store (o.name ++ ".ucf")
          ((design g o e p).map constraintText) ++
            if o.run then toolDeeds o (setup g o e p) else []) := by
    simp [deeds, generating, constraintDeeds]
  rw [hsplit] at hdone
  rcases concat_or_beginning hdone with hafter | hbefore
  · refine (hafter.filterMap Deed.written?).subset ?_
    rw [List.filterMap_append, List.filterMap_append, filterMap_written?_opening,
      filterMap_written?_body]
    exact List.mem_append_left _ hw
  · have hmem := (hbefore.filterMap Deed.state?).subset hstate
    rw [List.filterMap_append, filterMap_state?_opening, filterMap_state?_body] at hmem
    cases hv : o.mode.usesVerilog <;> simp [hv] at hmem

theorem delivers_of_makes {ps : List Path} (hm : h.Makes ps p.host) {f : Failure}
    (hf : f.building? = none) (file : Path) (text : String) :
    Delivers h (.error f, p) file text := by
  obtain ⟨ls, hdid⟩ := hm.did fun _ t => (t, .ok none)
  refine ⟨.inl ?_, fun hmem => ?_⟩
  · rw [writtenSince_eq hdid.journal, filterMap_written?_madeDirectory]
    rfl
  · rw [trace_eq_nil hf] at hmem
    cases hmem

/-- **A build delivers the files of its design** whose texts are known before it begins. -/
theorem run_delivers (options : Options) {file text : String}
    (hfile : ∀ p, (file, .ok text) ∈ designFiles g (options.within h) e p) :
    Delivers h (run g options e h) ((options.within h).directory.child file) text := by
  have habs := options.isAbsolute_within h
  generalize hout : run g options e h = out
  have hends : Ends g options e h out := hout ▸ run_ends g options e h
  have hartifact (p : Progress) : (file, .ok text) ∈ artifacts g (options.within h) e p :=
    List.mem_append_left _ (hfile p)
  cases hends with
  | refused hprepare =>
    exact delivers_of_makes (.refl h : h.Makes [] h) (untraced_of_prepare hprepare).1 _ _
  | outside hbuilding _ hm _ => exact delivers_of_makes hm hbuilding _ _
  | @reached p p' hp hall =>
    have hmem : (file, .ok text) ∈ (deeds g (options.within h) e p).filterMap Deed.written? := by
      rw [filterMap_written?_deeds]
      exact hartifact p
    obtain ⟨t, ht, hwritten⟩ := writtenSince_of_mem hp habs List.prefix_rfl hall.advances hmem
      h.directory
    rw [← Except.ok.inj ht] at hwritten
    exact ⟨.inr hwritten, fun _ => hwritten⟩
  | @stopped p p' done rest d f hp hdeeds hfails =>
    have hdone : done <+: deeds g (options.within h) e p := ⟨d :: rest, hdeeds.symm⟩
    obtain ⟨_, hadv⟩ := hfails.advances
    by_cases hmem : (file, .ok text) ∈ done.filterMap Deed.written?
    · obtain ⟨t, ht, hwritten⟩ := writtenSince_of_mem hp habs hdone hadv hmem h.directory
      rw [← Except.ok.inj ht] at hwritten
      exact ⟨.inr hwritten, fun _ => hwritten⟩
    · refine ⟨.inl ?_, fun hstate => ?_⟩
      · exact writtenSince_of_avoids hp hadv (avoids_of_notMem (hartifact p) hdone hmem) _
      · rw [trace_of_fails hp hfails] at hstate
        exact absurd (mem_of_writeConstraints (hfile p) hdone (by simpa using hstate)) hmem

end

/-- The options for another mode. -/
def Options.inMode (o : Options) (mode : Mode) : Options :=
  { o with mode := mode }

/-- The sources of a build whose paths are read below a directory: the further ones in their order,
and the generated top module. -/
def Options.sourcesFrom (o : Options) (base : Path) : List SourceFile :=
  o.sources.map (SourceFile.absolutize base) ++ [⟨⟨o.name ++ ".v"⟩, .verilog⟩]

/-- The directories of included files of such a build. -/
def Options.includesFrom (o : Options) (base : Path) : List Path :=
  o.includes.map (Path.absolutize base)

/-- Nothing that a build is to name breaks its line. -/
structure Options.Unbroken (o : Options) (base : Path) : Prop where
  base : '\n' ∉ base.text.toList
  name : '\n' ∉ o.name.toList
  sources : ∀ s ∈ o.sources, '\n' ∉ s.path.text.toList
  includes : ∀ p ∈ o.includes, '\n' ∉ p.text.toList

section

variable {o : Options} {base : Path}

theorem Options.Unbroken.sourcesFrom (h : o.Unbroken base) :
    FpgaFlow.Unbroken (o.sourcesFrom base) := by
  intro s hs
  rcases List.mem_append.1 hs with hs | hs
  · obtain ⟨source, hsource, rfl⟩ := List.mem_map.1 hs
    exact notMem_absolutize (by decide) h.base (h.sources source hsource)
  · rw [List.mem_singleton.1 hs]
    exact newline_notMem_append h.name (by decide)

theorem Options.Unbroken.includesFrom (h : o.Unbroken base) :
    ∀ p ∈ o.includesFrom base, '\n' ∉ p.text.toList := by
  intro p hp
  obtain ⟨directory, hdirectory, rfl⟩ := List.mem_map.1 hp
  exact notMem_absolutize (by decide) h.base (h.includes directory hdirectory)

end

/-- **Both synthesizers are given the same sources.** In the list of the project, and in the script
after the flags for included files, stand the further sources, absolute and in their order, and the
top module last. The directories of included files stand on one line each behind the other lines of
the run script, and behind one flag each on every reading line. -/
theorem backends_read_alike (g : Generator) (options : Options) (e : Equipment) (h : Host)
    {architecture : String} (harchitecture : options.device.architecture = .ok architecture)
    (hunbroken : options.Unbroken h.workingDirectory) :
    (∃ list script,
      Delivers h (run g (options.inMode .xst) e h)
        ((options.within h).directory.child (options.name ++ ".prj")) list ∧
      Delivers h (run g (options.inMode .xst) e h)
        ((options.within h).directory.child (options.name ++ ".xst")) script ∧
      (Text.lines list).map projectSource? =
        (options.sourcesFrom h.workingDirectory).map some ∧
      Text.lines script = Text.lines (XstProject.runScript options.device [] options.name
          options.tools.xst) ++
        (options.includesFrom h.workingDirectory).map
          fun p => ("-vlgincdir " ++ p.text).toList) ∧
    ∃ script,
      Delivers h (run g (options.inMode .yosys) e h)
        ((options.within h).directory.child (options.name ++ ".ys")) script ∧
      ((Text.lines script).filter readsFile).map
          (readSource? (options.includesFrom h.workingDirectory)) =
        (options.sourcesFrom h.workingDirectory).map some := by
  constructor
  · refine ⟨XstProject.sourceList (options.sourcesFrom h.workingDirectory),
      XstProject.runScript options.device (options.includesFrom h.workingDirectory) options.name
        options.tools.xst, ?_, ?_, ?_, ?_⟩
    · exact run_delivers (options.inMode .xst) fun p =>
        List.mem_cons_of_mem _ List.mem_cons_self
    · exact run_delivers (options.inMode .xst) fun p =>
        List.mem_cons_of_mem _ (List.mem_cons_of_mem _ List.mem_cons_self)
    · exact projectSource?_sourceList hunbroken.sourcesFrom
    · exact lines_runScript options.device options.tools.xst hunbroken.includesFrom
  · obtain ⟨script, hscript⟩ : ∃ script, YosysScript.render options.device
        (options.sourcesFrom h.workingDirectory) (options.includesFrom h.workingDirectory)
        options.name = .ok script := by
      rw [YosysScript.render, harchitecture]
      exact ⟨_, rfl⟩
    have htext : yosysText ((options.inMode .yosys).within h) = .ok script :=
      congrArg orStop hscript
    refine ⟨script, ?_, ?_⟩
    · refine run_delivers (options.inMode .yosys) fun p => ?_
      rw [← htext]
      exact List.mem_cons_of_mem _ List.mem_cons_self
    · exact readSource?_render harchitecture hunbroken.sourcesFrom hunbroken.includesFrom
        hunbroken.name hscript

/-- Options with sources and directories whose names look like parts of the lines. -/
def mixedOptions : Options :=
  { Options.default ⟨"xc6slx9"⟩ with
    run := false
    sources := [⟨⟨"src/a work b.vhd"⟩, .vhdl⟩, ⟨⟨"/lib/x -I y.v"⟩, .verilog⟩]
    includes := [⟨"inc"⟩, ⟨"/lib/my inc"⟩] }

def mixedSources : List SourceFile :=
  [⟨⟨"/p/src/a work b.vhd"⟩, .vhdl⟩, ⟨⟨"/lib/x -I y.v"⟩, .verilog⟩, ⟨⟨"top.v"⟩, .verilog⟩]

/-- Both builds of a design come past their projects. -/
theorem backends_read_mixedOptions :
    mixedOptions.Unbroken pairedHost.workingDirectory ∧
    (∃ list, writtenSince pairedHost (run (pairedDesign []).generator (mixedOptions.inMode .xst)
          ⟨quiet, .empty, none⟩ pairedHost).2 ["p", "build", "top.prj"] = [list] ∧
        (Text.lines list).map projectSource? = mixedSources.map some) ∧
    ∃ script, writtenSince pairedHost (run (pairedDesign []).generator (mixedOptions.inMode .yosys)
          ⟨quiet, .empty, none⟩ pairedHost).2 ["p", "build", "top.ys"] = [script] ∧
        ((Text.lines script).filter readsFile).map (readSource? [⟨"/p/inc"⟩, ⟨"/lib/my inc"⟩]) =
          mixedSources.map some := by
  have hunbroken : mixedOptions.Unbroken pairedHost.workingDirectory :=
    ⟨by decide, by decide, by decide, by decide⟩
  have harchitecture : mixedOptions.device.architecture = .ok "spartan6" := by decide
  obtain ⟨⟨list, _, hlist, -, hread, -⟩, script, hscript, hread'⟩ := backends_read_alike
    (pairedDesign []).generator mixedOptions ⟨quiet, .empty, none⟩ pairedHost
    harchitecture hunbroken
  exact ⟨hunbroken, ⟨list, hlist.sure (by decide +kernel), hread⟩, script,
    hscript.sure (by decide +kernel), hread'⟩

end Build

end FpgaFlow
