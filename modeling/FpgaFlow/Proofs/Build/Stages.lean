import FpgaFlow.Proofs.Build.Deeds

/-!
# The stages of a build as deeds

`Build.deeds` lists what a build does in each mode: it opens by asking its design
(`opening`), goes on with the files of the design and of its synthesizer
(`body`), the constraints, and, when the tools are to be run, the control script.

**Main statement** `stages_unfolds`: the stages of a build perform these deeds.
-/

namespace FpgaFlow

namespace Build

/-- The answer without what it says. -/
def settled {α : Type} (r : Except Failure α) : Except Failure Unit :=
  r.map fun _ => ()

/-- Writes a file and notes it. -/
def store (file : String) (text : Except Failure String) : List Deed :=
  [.write file text, .note [file]]

/-- A fault as the answer of a step. -/
def orStop {α : Type} (r : Except Fault α) : Except Failure α :=
  r.mapError fun fault => Failure.of (.fault fault)

/-- The question for the design in the mode of a build. -/
def question (o : Options) (e : Equipment) : Question :=
  if o.mode.usesVerilog then .verilog e.lowering else .netlist (.xilinx o.device)

/-- What the design answers when it looks at files from somewhere. -/
def answer (g : Generator) (o : Options) (e : Equipment) (v : View) : Except Failure Generated :=
  if o.mode.usesVerilog then g.verilog e.lowering v else g.netlist (.xilinx o.device) v

/-- The sources that a synthesizer is given: the further ones, and the top module last. -/
def allSources (o : Options) : List SourceFile :=
  o.sources ++ [⟨⟨o.name ++ ".v"⟩, .verilog⟩]

def yosysText (o : Options) : Except Failure String :=
  orStop (YosysScript.render o.device (allSources o) o.includes o.name)

/-- What the specialized synthesizer does, if there is one. -/
def synthesisDeeds (g : Generator) (e : Equipment) : List Deed :=
  match e.synthesizer with
  | none => []
  | some (.hosted synthesize) => [.ask (.synthesis g.ioSignals), .await (synthesize g.ioSignals)]
  | some (.program path arguments) => [.call ⟨.specialized, path, arguments ++ g.ioSignals⟩]

/-- Up to the question for the design. -/
def opening (g : Generator) (o : Options) (e : Equipment) : List Deed :=
  [.enter .selectMode, .enter .generateDesign] ++
    ((if o.mode = .mist then synthesisDeeds g e else []) ++ [.ask (question o e)])

/-- The project of the synthesizer that is named by the mode. -/
def projectDeeds (o : Options) (program : Path) : List Deed :=
  if o.mode = .xst then
    [.write (o.name ++ ".prj") (.ok (XstProject.sourceList (allSources o))),
      .write (o.name ++ ".xst")
        (.ok (XstProject.runScript o.device o.includes o.name o.tools.xst)),
      .note [o.name ++ ".prj", o.name ++ ".xst"]]
  else
    [.await (settled (yosysText o)), .write (o.name ++ ".ys") (yosysText o),
      .call ⟨.yosys, program, [o.name ++ ".ys"]⟩, .note [o.name ++ ".ys"]]

/-- What is done with the answer of the design. -/
def body (o : Options) (program : Path) (design : Except Failure Generated) : List Deed :=
  .await (settled design) :: if o.mode.usesVerilog then
    store (o.name ++ ".v") (design.map Generated.text) ++
      .enter .generateProject :: projectDeeds o program
  else store (o.name ++ ".edif") (design.map Generated.text)

/-- The text of the constraints. -/
def constraintText (generated : Generated) : String :=
  Ucf.render generated.signals generated.commands

def constraintDeeds (o : Options) (design : Except Failure Generated) : List Deed :=
  .enter .writeConstraints :: store (o.name ++ ".ucf") (design.map constraintText)

/-- The text of the control script. -/
def scriptText (o : Options) (commands : List String) : String :=
  (ControlScript.assemble o.name commands o.mode.netlist o.scriptTools).render

def scriptCall (o : Options) : Call :=
  ⟨.script, ⟨"bash"⟩, [ControlScript.fileName o.name]⟩

def toolDeeds (o : Options) (setup : Except Failure (List String)) : List Deed :=
  [.enter .runScript, .await (settled setup)] ++
    (store (ControlScript.fileName o.name) (setup.map (scriptText o)) ++ [.call (scriptCall o)])

/-- The commands that set up the tools, looked for from somewhere. -/
def setupCommands (o : Options) (v : View) : Except Failure (List String) :=
  orStop (v.environmentCommands o.installRoot o.source)

def bitstreamPath (o : Options) : Option Path :=
  if o.run then some (o.directory.child (o.name ++ ControlScript.bitstreamExtension)) else none

/-- The progress that deeds lead to. -/
def after (directory : Path) (tools : Tools) (ds : List Deed) (p : Progress) : Progress :=
  (ExceptT.run (performAll directory tools ds) p).2

variable (g : Generator) (o : Options) (e : Equipment)

/-- What the design answers in a build that starts from here. -/
def design (p : Progress) : Except Failure Generated :=
  answer g o e (after o.directory e.tools (opening g o e) p).host.toView

/-- The deeds of a build up to its tools. -/
def generating (p : Progress) : List Deed :=
  opening g o e ++ (body o (Action.yosysProgram p.host) (design g o e p) ++
    constraintDeeds o (design g o e p))

/-- The commands that set up the tools in a build that starts from here. -/
def setup (p : Progress) : Except Failure (List String) :=
  setupCommands o (after o.directory e.tools (generating g o e p) p).host.toView

/-- The deeds of a build that starts from here. -/
def deeds (p : Progress) : List Deed :=
  generating g o e p ++ if o.run then toolDeeds o (setup g o e p) else []

/-! ### Parts of a build as deeds -/

variable {directory : Path} {tools : Tools} {p p' : Progress} {ds es : List Deed}

/-- A part of a build performs a list of deeds. What it gives when they succeed is in `R`. -/
def Unfolds {α : Type} (directory : Path) (tools : Tools) (m : Stage α) (p : Progress)
    (ds : List Deed) (R : α → Prop) : Prop :=
  (∃ a p', Performs directory tools p ds p' ∧ ExceptT.run m p = (.ok a, p') ∧ R a) ∨
    ∃ done d rest f p', ds = done ++ d :: rest ∧ Fails directory tools p done d f p' ∧
      ExceptT.run m p = (.error f, p')

theorem Unfolds.bind {α β : Type} {m : Stage α} {k : α → Stage β} {Q : α → Prop} {R : β → Prop}
    (hm : Unfolds directory tools m p ds Q)
    (hk : ∀ a p', Q a → Performs directory tools p ds p' →
      Unfolds directory tools (k a) p' es R) :
    Unfolds directory tools (m >>= k) p (ds ++ es) R := by
  rw [Unfolds, run_bind]
  rcases hm with ⟨a, p₁, hp, hrun, ha⟩ | ⟨done, d, rest, f, p', hds, hfails, hrun⟩
  · rw [hrun]
    rcases hk a p₁ ha hp with
      ⟨b, p', hp', hrest, hb⟩ | ⟨done, d, rest, f, p', hes, ⟨p₂, hdone, hd⟩, hrest⟩
    · exact .inl ⟨b, p', hp.append hp', hrest, hb⟩
    · refine .inr ⟨ds ++ done, d, rest, f, p', ?_, ⟨p₂, hp.append hdone, hd⟩, hrest⟩
      rw [hes, List.append_assoc]
  · rw [hrun]
    refine .inr ⟨done, d, rest ++ es, f, p', ?_, hfails, rfl⟩
    rw [hds, List.append_assoc, List.cons_append]

theorem Unfolds.mono {α : Type} {m : Stage α} {Q R : α → Prop}
    (hm : Unfolds directory tools m p ds Q) (hQR : ∀ a, Q a → R a) :
    Unfolds directory tools m p ds R := by
  rcases hm with ⟨a, p', hp, hrun, ha⟩ | hfails
  · exact .inl ⟨a, p', hp, hrun, hQR a ha⟩
  · exact .inr hfails

theorem unfolds_pure {α : Type} (a : α) :
    Unfolds directory tools (pure a) p [] (· = a) :=
  .inl ⟨a, p, .nil p, rfl, rfl⟩

theorem unfolds_perform (d : Deed) :
    Unfolds directory tools (d.perform directory tools) p [d] fun _ => True := by
  cases hd : ExceptT.run (d.perform directory tools) p with
  | mk r p' =>
    cases r with
    | ok u => exact .inl ⟨u, p', .cons hd (.nil p'), hd, trivial⟩
    | error f => exact .inr ⟨[], d, [], f, p', rfl, ⟨p, .nil p, hd⟩, hd⟩

/-- A look at the host succeeds with its answer. -/
theorem unfolds_look {α : Type} (f : Host → Except Failure α) (answer : Except Failure α)
    (h : f p.host = answer) :
    Unfolds directory tools (Stage.act (Action.look f)) p [.await (settled answer)]
      (answer = .ok ·) := by
  have hlook : ExceptT.run (Stage.act (Action.look f)) p = (answer, p) := by rw [← h]; rfl
  have hawait : ExceptT.run (Deed.perform directory tools (.await (settled answer))) p =
    (settled answer, p) := rfl
  cases answer with
  | ok a => exact .inl ⟨a, p, .cons hawait (.nil p), hlook, rfl⟩
  | error e => exact .inr ⟨[], _, [], e, p, rfl, ⟨p, .nil p, hawait⟩, hlook⟩

/-- What is seen on the host without fail. -/
theorem unfolds_see {α : Type} (f : Host → α) :
    Unfolds directory tools (Stage.act (Action.look fun h => .ok (f h))) p [] (f p.host = ·) :=
  .inl ⟨f p.host, p, .nil p, rfl, rfl⟩

theorem unfolds_write (file text : String) :
    Unfolds directory tools (Stage.act (Action.writeText (directory.child file) text)) p
      [.write file (.ok text)] fun _ => True :=
  unfolds_perform (.write file (.ok text))

theorem unfolds_call (c : Call) :
    Unfolds directory tools
      (Stage.act (Action.runSuccessfully tools c.tool c.program c.arguments)) p [.call c]
      fun _ => True :=
  unfolds_perform (.call c)

theorem unfolds_store (file text : String) :
    Unfolds directory tools (Stage.writeFile directory file text) p (store file (.ok text))
      fun _ => True :=
  (unfolds_write file text).bind fun _ _ _ _ => unfolds_perform (.note [file])

/-- Actions one after the other. -/
theorem act_bind {α β : Type} (a : Action α) (f : α → Action β) :
    Stage.act (a >>= f) = Stage.act a >>= fun x => Stage.act (f x) := by
  have h : ∀ p, ExceptT.run (Stage.act (a >>= f)) p =
      ExceptT.run (Stage.act a >>= fun x => Stage.act (f x)) p := by
    intro p
    rw [run_bind]
    have hact {γ : Type} (c : Action γ) : ExceptT.run (Stage.act c) p =
        ((ExceptT.run c p.host).1, { p with host := (ExceptT.run c p.host).2 }) := rfl
    rw [hact, hact, run_bind]
    cases ExceptT.run a p.host with
    | mk r h' =>
      cases r with
      | ok x => rfl
      | error e => rfl
  exact funext h

theorem yosysProgram_eq (h : Performs directory tools p ds p') :
    Action.yosysProgram p'.host = Action.yosysProgram p.host := by
  obtain ⟨_, hdid, -⟩ := h.advances.host
  rw [Action.yosysProgram, Action.yosysProgram, Host.valueOf?, Host.valueOf?, hdid.environment]

/-! ### The parts of a build -/

theorem unfolds_writeXstProject :
    Unfolds o.directory tools
      (Stage.act (Action.writeXstProject o.directory o.device (allSources o) o.includes o.name
        o.tools.xst)) p
      [.write (o.name ++ ".prj") (.ok (XstProject.sourceList (allSources o))),
        .write (o.name ++ ".xst")
          (.ok (XstProject.runScript o.device o.includes o.name o.tools.xst))]
      (· = [o.name ++ ".prj", o.name ++ ".xst"]) := by
  simp only [Action.writeXstProject, act_bind]
  refine (unfolds_write _ _).bind fun _ _ _ _ => ?_
  exact (unfolds_write _ _).bind fun _ _ _ _ => unfolds_pure _

theorem unfolds_runYosys (program : Path) (hp : Action.yosysProgram p.host = program) :
    Unfolds o.directory tools
      (Stage.act (Action.runYosys tools o.directory o.device (allSources o) o.includes o.name)) p
      [.await (settled (yosysText o)), .write (o.name ++ ".ys") (yosysText o),
        .call ⟨.yosys, program, [o.name ++ ".ys"]⟩]
      (· = o.name ++ ".ys") := by
  simp only [Action.runYosys, act_bind]
  refine (unfolds_look _ (yosysText o) rfl).bind fun text p₁ htext h₁ => ?_
  rw [htext]
  refine (unfolds_write _ text).bind fun _ p₂ _ h₂ => ?_
  refine (unfolds_see Action.yosysProgram).bind fun found p₃ hfound _ => ?_
  obtain rfl : found = program := by rw [← hfound, yosysProgram_eq h₂, yosysProgram_eq h₁, hp]
  exact (unfolds_call ⟨.yosys, found, [o.name ++ ".ys"]⟩).bind fun _ _ _ _ => unfolds_pure _

theorem unfolds_project {α : Type} (x : α) (program : Path)
    (hp : Action.yosysProgram p.host = program) :
    Unfolds o.directory tools
      (if o.mode = .xst then do
        let files ← Stage.act (Action.writeXstProject o.directory o.device (allSources o)
          o.includes o.name o.tools.xst)
        Stage.note files
        pure x
      else do
        let file ← Stage.act (Action.runYosys tools o.directory o.device (allSources o)
          o.includes o.name)
        Stage.note [file]
        pure x) p
      (projectDeeds o program) (· = x) := by
  rw [projectDeeds]
  split
  next =>
    refine (unfolds_writeXstProject o).bind fun files _ hfiles _ => ?_
    rw [hfiles]
    exact (unfolds_perform (.note _)).bind fun _ _ _ _ => unfolds_pure x
  next =>
    refine (unfolds_runYosys o program hp).bind fun file _ hfile _ => ?_
    rw [hfile]
    exact (unfolds_perform (.note [o.name ++ ".ys"])).bind fun _ _ _ _ => unfolds_pure x

/-- The Verilog text, the file that it is written to, and the project of the synthesizer. -/
theorem unfolds_generateVerilog (hv : o.mode.usesVerilog = true) (program : Path)
    (hp : Action.yosysProgram p.host = program) (design : Except Failure Generated)
    (hd : ∀ p₁, Performs o.directory e.tools p [.ask (question o e)] p₁ →
      answer g o e p₁.host.toView = design) :
    Unfolds o.directory e.tools (generateVerilog g o e) p
      ([.ask (question o e)] ++ body o program design) (design = .ok ·) := by
  have hbody : body o program design = [.await (settled design)] ++
      (store (o.name ++ ".v") (design.map Generated.text) ++
        ([.enter .generateProject] ++ projectDeeds o program)) := by
    rw [body, if_pos hv]
    rfl
  have hq : question o e = .verilog e.lowering := if_pos hv
  rw [generateVerilog, hbody]
  rw [hq] at hd ⊢
  refine (unfolds_perform (.ask _)).bind fun _ p₁ _ h₁ => ?_
  have hanswer : g.verilog e.lowering p₁.host.toView = design := by
    rw [← hd p₁ h₁, answer, if_pos hv]
  refine (unfolds_look _ design hanswer).bind fun generated p₂ hgenerated h₂ => ?_
  rw [hgenerated]
  refine (unfolds_store _ generated.text).bind fun _ p₃ _ h₃ => ?_
  refine (unfolds_perform (.enter .generateProject)).bind fun _ p₄ _ h₄ => ?_
  have hprogram : Action.yosysProgram p₄.host = program := by
    rw [yosysProgram_eq h₄, yosysProgram_eq h₃, yosysProgram_eq h₂, yosysProgram_eq h₁, hp]
  refine (unfolds_project o generated program hprogram).mono fun a ha => ?_
  rw [ha]

theorem unfolds_synthesize :
    Unfolds directory e.tools (synthesize g e) p (synthesisDeeds g e) fun _ => True := by
  rw [synthesize, synthesisDeeds]
  cases e.synthesizer with
  | none => exact (unfolds_pure ()).mono fun _ _ => trivial
  | some s =>
    cases s with
    | hosted f =>
      exact (unfolds_perform (.ask _)).bind fun _ _ _ _ => unfolds_perform (.await _)
    | program path arguments => exact unfolds_call ⟨.specialized, path, _⟩

/-- The netlist and the file that it is written to. -/
theorem unfolds_writeNetlist (hv : o.mode.usesVerilog = false) (program : Path)
    (design : Except Failure Generated)
    (hd : ∀ p₁, Performs o.directory e.tools p [.ask (question o e)] p₁ →
      answer g o e p₁.host.toView = design) :
    Unfolds o.directory e.tools (do
        Stage.ask (.netlist (.xilinx o.device))
        let generated ← Stage.act (Action.look fun h => g.netlist (.xilinx o.device) h.toView)
        Stage.writeFile o.directory (o.name ++ ".edif") generated.text
        pure generated) p
      ([.ask (question o e)] ++ body o program design) (design = .ok ·) := by
  have hbody : body o program design = [.await (settled design)] ++
      (store (o.name ++ ".edif") (design.map Generated.text) ++ []) := by
    rw [body, if_neg (by simp [hv]), List.append_nil]
    rfl
  have hq : question o e = .netlist (.xilinx o.device) := if_neg (by simp [hv])
  rw [hbody]
  rw [hq] at hd ⊢
  refine (unfolds_perform (.ask _)).bind fun _ p₁ _ h₁ => ?_
  have hanswer : g.netlist (.xilinx o.device) p₁.host.toView = design := by
    rw [← hd p₁ h₁, answer, if_neg (by simp [hv])]
  refine (unfolds_look _ design hanswer).bind fun generated _ hgenerated _ => ?_
  rw [hgenerated]
  refine (unfolds_store _ generated.text).bind fun _ _ _ _ => ?_
  exact (unfolds_pure generated).mono fun a ha => by rw [ha]

theorem unfolds_generate (program : Path) (hp : Action.yosysProgram p.host = program)
    (design : Except Failure Generated)
    (hd : ∀ p₁, Performs o.directory e.tools p
      ((if o.mode = .mist then synthesisDeeds g e else []) ++ [.ask (question o e)]) p₁ →
      answer g o e p₁.host.toView = design) :
    Unfolds o.directory e.tools (generate g o e) p
      ((if o.mode = .mist then synthesisDeeds g e else []) ++
        ([.ask (question o e)] ++ body o program design)) (design = .ok ·) := by
  rw [generate]
  cases hv : o.mode.usesVerilog with
  | true =>
    have hm : o.mode ≠ .mist := by
      intro hm
      rw [hm] at hv
      cases hv
    rw [if_neg hm] at hd ⊢
    exact unfolds_generateVerilog g o e hv program hp design hd
  | false =>
    simp only [Bool.false_eq_true, if_false]
    rw [generateNetlist]
    split
    next hm =>
      rw [if_pos hm] at hd
      refine (unfolds_synthesize g e).bind fun _ p₁ _ h₁ => ?_
      exact unfolds_writeNetlist g o e hv program design fun p₂ h₂ => hd p₂ (h₁.append h₂)
    next hm =>
      rw [if_neg hm] at hd
      exact unfolds_writeNetlist g o e hv program design hd

/-- The control script and its call. -/
theorem unfolds_runTools (setup : Except Failure (List String))
    (hs : setupCommands o p.host.toView = setup) :
    Unfolds o.directory e.tools (runTools o e) p
      ([.await (settled setup)] ++
        (store (ControlScript.fileName o.name) (setup.map (scriptText o)) ++
          [.call (scriptCall o)]))
      (· = o.directory.child (o.name ++ ControlScript.bitstreamExtension)) := by
  rw [runTools]
  refine (unfolds_look _ setup hs).bind fun commands _ hcommands _ => ?_
  rw [hcommands]
  refine (unfolds_store _ (scriptText o commands)).bind fun _ _ _ _ => ?_
  exact (unfolds_call (scriptCall o)).bind fun _ _ _ _ => unfolds_pure _

theorem unfolds_script (setup : Except Failure (List String))
    (hs : setupCommands o p.host.toView = setup) :
    Unfolds o.directory e.tools (if o.run then do
        Stage.enter .runScript
        return some (← runTools o e)
      else return none) p
      (if o.run then toolDeeds o setup else []) (· = bitstreamPath o) := by
  rw [bitstreamPath]
  split
  next =>
    have hlist : toolDeeds o setup = [.enter .runScript] ++ (([.await (settled setup)] ++
        (store (ControlScript.fileName o.name) (setup.map (scriptText o)) ++
          [.call (scriptCall o)])) ++ []) := by
      simp [toolDeeds]
    rw [hlist]
    refine (unfolds_perform (.enter .runScript)).bind fun _ p₁ _ h₁ => ?_
    have hsame : p₁.host = p.host := by
      obtain ⟨-, rfl⟩ := Prod.mk.inj (h₁.run.symm.trans rfl)
      rfl
    rw [← hsame] at hs
    refine (unfolds_runTools o e setup hs).bind fun path _ hpath _ => ?_
    rw [hpath]
    exact unfolds_pure _
  next => exact unfolds_pure none

/-- **The stages of a build are its deeds.** -/
theorem stages_unfolds :
    Unfolds o.directory e.tools (stages g o e) p (deeds g o e p) (· = bitstreamPath o) := by
  have hlist : deeds g o e p = [.enter .selectMode] ++ ([.enter .generateDesign] ++
      (((if o.mode = .mist then synthesisDeeds g e else []) ++ ([.ask (question o e)] ++
        body o (Action.yosysProgram p.host) (design g o e p))) ++
      ([.enter .writeConstraints] ++
        (store (o.name ++ ".ucf") ((design g o e p).map constraintText) ++
      if o.run then toolDeeds o (setup g o e p) else [])))) := by
    simp [deeds, generating, opening, constraintDeeds]
  rw [hlist, stages]
  refine (unfolds_perform (.enter .selectMode)).bind fun _ p₁ _ h₁ => ?_
  refine (unfolds_perform (.enter .generateDesign)).bind fun _ p₂ _ h₂ => ?_
  have hprogram : Action.yosysProgram p₂.host = Action.yosysProgram p.host := by
    rw [yosysProgram_eq h₂, yosysProgram_eq h₁]
  refine (unfolds_generate g o e _ hprogram (design g o e p) fun p₃ h₃ => ?_).bind
    fun generated p₃ hgenerated h₃ => ?_
  · have hopening : Performs o.directory e.tools p (opening g o e) p₃ := (h₁.append h₂).append h₃
    rw [design, after, hopening.run]
  refine (unfolds_perform (.enter .writeConstraints)).bind fun _ p₄ _ h₄ => ?_
  have hstore : store (o.name ++ ".ucf") ((design g o e p).map constraintText) =
      store (o.name ++ ".ucf") (.ok (constraintText generated)) := by
    rw [hgenerated]
    rfl
  rw [hstore]
  refine (unfolds_store _ (constraintText generated)).bind fun _ p₅ _ h₅ => ?_
  refine unfolds_script o e (setup g o e p) ?_
  have hgenerating : Performs o.directory e.tools p (generating g o e p) p₅ := by
    have happend := h₁.append (h₂.append (h₃.append (h₄.append h₅)))
    rw [← hstore] at happend
    simpa [generating, opening, constraintDeeds] using happend
  rw [setup, after, hgenerating.run]

/-- **What a build does is to perform its deeds.** -/
theorem run_stages (p : Progress) : ExceptT.run (stages g o e) p =
    match ExceptT.run (performAll o.directory e.tools (deeds g o e p)) p with
      | (.ok (), p') => (.ok (bitstreamPath o), p')
      | (.error f, p') => (.error f, p') := by
  rcases stages_unfolds g o e (p := p) with
    ⟨b, p', hall, hrun, rfl⟩ | ⟨done, d, rest, f, p', hdeeds, hfails, hrun⟩
  · rw [hrun, hall.run]
  · rw [hrun, hdeeds, hfails.run]

end Build

end FpgaFlow
