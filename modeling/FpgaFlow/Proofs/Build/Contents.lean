import FpgaFlow.Proofs.Build.Ends

/-!
# What the deeds of a build are about

The states, the files and the calls of a build, read off its deeds.  The files
have endings of their own (`endings`), so that two of them are never in one place
(`endings_nodup`), whatever the name of the build is.
-/

namespace FpgaFlow

namespace Build

variable (g : Generator) (o : Options) (e : Equipment) (p : Progress)

/-- The files of a design and of its synthesizer, and what is written to them. -/
def designFiles : List (String × Except Failure String) :=
  match o.mode with
  | .xst => [(o.name ++ ".v", (design g o e p).map Generated.text),
      (o.name ++ ".prj", .ok (XstProject.sourceList (allSources o))),
      (o.name ++ ".xst", .ok (XstProject.runScript o.device o.includes o.name o.tools.xst))]
  | .yosys => [(o.name ++ ".v", (design g o e p).map Generated.text),
      (o.name ++ ".ys", yosysText o)]
  | .edif | .mist => [(o.name ++ ".edif", (design g o e p).map Generated.text)]

def constraintFile : String × Except Failure String :=
  (o.name ++ ".ucf", (design g o e p).map constraintText)

def scriptFile : String × Except Failure String :=
  (ControlScript.fileName o.name, (setup g o e p).map (scriptText o))

/-- The files of a build in their order, and what is written to them. -/
def artifacts : List (String × Except Failure String) :=
  designFiles g o e p ++ constraintFile g o e p :: if o.run then [scriptFile g o e p] else []

def designEndings : Mode → List String
  | .xst => ["v", "prj", "xst"]
  | .yosys => ["v", "ys"]
  | .edif | .mist => ["edif"]

/-- The extensions of the files of a build. -/
def endings (mode : Mode) (run : Bool) : List String :=
  designEndings mode ++ "ucf" :: if run then ["sh"] else []

theorem endings_nodup (mode : Mode) (run : Bool) : (endings mode run).Nodup := by
  cases mode <;> cases run <;> decide

theorem ne_empty_of_mem_endings {mode : Mode} {run : Bool} {ext : String}
    (h : ext ∈ endings mode run) : ext ≠ "" := by
  rintro rfl
  revert h
  cases mode <;> cases run <;> decide

/-- No file of a build is a manifest or a configuration. -/
theorem toml_notMem_endings (mode : Mode) (run : Bool) : "toml" ∉ endings mode run := by
  cases mode <;> cases run <;> decide

def synthesisCall : List Call :=
  match e.synthesizer with
  | some (.program path arguments) => [⟨.specialized, path, arguments ++ g.ioSignals⟩]
  | _ => []

/-- The calls that a build comes to: that of the specialized synthesizer, that of the open one, and
that of the control script. -/
def calls (program : Path) : List Call :=
  (if o.mode = .mist then synthesisCall g e else []) ++
    ((if o.mode = .yosys then [⟨.yosys, program, [o.name ++ ".ys"]⟩] else []) ++
      if o.run then [scriptCall o] else [])

/-! ### States -/

theorem filterMap_state?_synthesisDeeds :
    (synthesisDeeds g e).filterMap Deed.state? = [] := by
  rw [synthesisDeeds]
  split <;> rfl

theorem filterMap_state?_opening :
    (opening g o e).filterMap Deed.state? = [.selectMode, .generateDesign] := by
  rw [opening]
  split
  next =>
    simp only [List.filterMap_append, filterMap_state?_synthesisDeeds]
    rfl
  next => rfl

theorem filterMap_state?_body (program : Path) (r : Except Failure Generated) :
    (body o program r).filterMap Deed.state? =
      if o.mode.usesVerilog then [.generateProject] else [] := by
  rw [body, projectDeeds]
  split
  next =>
    split <;> rfl
  next => rfl

theorem filterMap_state?_deeds : (deeds g o e p).filterMap Deed.state? =
    [.selectMode, .generateDesign] ++ ((if o.mode.usesVerilog then [.generateProject] else []) ++
      .writeConstraints :: if o.run then [.runScript] else []) := by
  rw [deeds, generating]
  simp only [List.filterMap_append, filterMap_state?_opening, filterMap_state?_body,
    List.append_assoc]
  cases o.run with
  | true => rfl
  | false => rfl

/-! ### Files -/

theorem filterMap_written?_opening : (opening g o e).filterMap Deed.written? = [] := by
  rw [opening, synthesisDeeds]
  split
  next =>
    split <;> rfl
  next => rfl

theorem filterMap_written?_body (program : Path) :
    (body o program (design g o e p)).filterMap Deed.written? = designFiles g o e p := by
  rw [body, projectDeeds, designFiles]
  cases o.mode <;> rfl

theorem filterMap_written?_generating : (generating g o e p).filterMap Deed.written? =
    designFiles g o e p ++ [constraintFile g o e p] := by
  rw [generating]
  simp only [List.filterMap_append, filterMap_written?_opening, filterMap_written?_body]
  rfl

/-- **The files that a build writes.** -/
theorem filterMap_written?_deeds :
    (deeds g o e p).filterMap Deed.written? = artifacts g o e p := by
  rw [deeds, artifacts, List.filterMap_append, filterMap_written?_generating]
  rw [List.append_assoc]
  cases o.run with
  | true => rfl
  | false => rfl

theorem flatMap_noted_opening : (opening g o e).flatMap Deed.noted = [] := by
  rw [opening, synthesisDeeds]
  split
  next =>
    split <;> rfl
  next => rfl

theorem flatMap_noted_body (program : Path) :
    (body o program (design g o e p)).flatMap Deed.noted =
      (designFiles g o e p).map Prod.fst := by
  rw [body, projectDeeds, designFiles]
  cases o.mode <;> rfl

/-- Exactly the names of the written files are noted. -/
theorem flatMap_noted_deeds :
    (deeds g o e p).flatMap Deed.noted = (artifacts g o e p).map Prod.fst := by
  rw [deeds, artifacts, generating]
  simp only [List.flatMap_append, flatMap_noted_opening, flatMap_noted_body, List.map_append]
  cases o.run with
  | true => simp [constraintDeeds, toolDeeds, store, Deed.noted, constraintFile, scriptFile]
  | false => simp [constraintDeeds, store, Deed.noted, constraintFile]

theorem extended_append (stem : String) {ext : String} (hpoint : '.' ∉ ext.toList)
    (hslash : '/' ∉ ext.toList) : View.Extended (stem ++ ("." ++ ext)) ext :=
  ⟨hpoint, hslash, stem, rfl⟩

theorem extended_designFiles : List.Forall₂ (fun w ext => View.Extended w.1 ext)
    (designFiles g o e p) (designEndings o.mode) := by
  have hv : View.Extended (o.name ++ ".v") "v" := extended_append _ (by decide) (by decide)
  have hprj : View.Extended (o.name ++ ".prj") "prj" := extended_append _ (by decide) (by decide)
  have hxst : View.Extended (o.name ++ ".xst") "xst" := extended_append _ (by decide) (by decide)
  have hys : View.Extended (o.name ++ ".ys") "ys" := extended_append _ (by decide) (by decide)
  have hedif : View.Extended (o.name ++ ".edif") "edif" :=
    extended_append _ (by decide) (by decide)
  rw [designFiles]
  cases o.mode with
  | xst => exact .cons hv (.cons hprj (.cons hxst .nil))
  | yosys => exact .cons hv (.cons hys .nil)
  | edif => exact .cons hedif .nil
  | mist => exact .cons hedif .nil

theorem extended_ucf : View.Extended (o.name ++ ".ucf") "ucf" :=
  extended_append _ (by decide) (by decide)

theorem extended_script : View.Extended (ControlScript.fileName o.name) "sh" :=
  extended_append _ (by decide) (by decide)

/-- **Every file of a build has its own extension.** -/
theorem extended_artifacts : List.Forall₂ (fun w ext => View.Extended w.1 ext)
    (artifacts g o e p) (endings o.mode o.run) := by
  rw [artifacts, endings]
  refine List.rel_append (extended_designFiles g o e p) (.cons (extended_ucf o) ?_)
  cases o.run with
  | true => exact .cons (extended_script o) .nil
  | false => exact .nil

theorem mem_right_of_forall₂ {α β : Type} {R : α → β → Prop} {as : List α} {bs : List β}
    (h : List.Forall₂ R as bs) {a : α} (ha : a ∈ as) : ∃ b ∈ bs, R a b := by
  induction h with
  | nil => cases ha
  | @cons a' b as bs hab _ ih =>
    rcases List.mem_cons.1 ha with rfl | ha
    · exact ⟨b, List.mem_cons_self, hab⟩
    · obtain ⟨c, hc, hac⟩ := ih ha
      exact ⟨c, List.mem_cons_of_mem _ hc, hac⟩

/-- Files of different extensions are in different places. -/
theorem ne_of_extended {directory : Path} {v w : View} {file file' ext ext' : String}
    {l : Location} (hext : View.Extended file ext) (hext' : View.Extended file' ext')
    (h : v.fileTarget (directory.child file) = .ok l)
    (h' : w.fileTarget (directory.child file') = .ok l) : ext = ext' := by
  have hending := (View.ending_of_fileTarget hext h).symm.trans (View.ending_of_fileTarget hext' h')
  exact String.toList_inj.1 (Option.some.inj hending)

/-! ### Calls -/

theorem filterMap_call?_synthesisDeeds :
    (synthesisDeeds g e).filterMap Deed.call? = synthesisCall g e := by
  rw [synthesisDeeds, synthesisCall]
  cases e.synthesizer with
  | none => rfl
  | some s =>
    cases s with
    | program path arguments => rfl
    | hosted f => rfl

theorem filterMap_call?_opening : (opening g o e).filterMap Deed.call? =
    if o.mode = .mist then synthesisCall g e else [] := by
  rw [opening]
  split
  next =>
    simp only [List.filterMap_append, filterMap_call?_synthesisDeeds]
    exact List.append_nil _
  next => rfl

theorem filterMap_call?_body (program : Path) (r : Except Failure Generated) :
    (body o program r).filterMap Deed.call? =
      if o.mode = .yosys then [⟨.yosys, program, [o.name ++ ".ys"]⟩] else [] := by
  rw [body, projectDeeds]
  cases o.mode <;> rfl

theorem filterMap_call?_deeds :
    (deeds g o e p).filterMap Deed.call? = calls g o e (Action.yosysProgram p.host) := by
  rw [deeds, generating, calls]
  simp only [List.filterMap_append, filterMap_call?_opening, filterMap_call?_body,
    List.append_assoc]
  cases o.run with
  | true => rfl
  | false => rfl

end Build

end FpgaFlow
