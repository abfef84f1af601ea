import FpgaFlow.Command.Run
import FpgaFlow.Proofs.Build.Frame

/-!
# Builds stop at the first tool that fails

A build makes its calls in a fixed order (`calls`).  The first one that does not
end with exit code zero is the last thing that the build does: nothing is written
and nothing is run after it, and what was written before it stays.  The failure
names the tool and its exit code, which becomes the exit code of the command line.

**Main statement** `build_fails_stop`.
-/

namespace FpgaFlow

namespace Build

def Call.invocation (c : Call) (directory : Location) : Invocation :=
  ⟨c.program, c.arguments, directory⟩

/-- What a build did since `h`: it made the calls `good`, which ended with exit code zero, and then
perhaps one that did not. -/
structure Account (tools : Tools) (h : Host) (planned : List Call) (directory : Location)
    (good : List Call) (bad : Option (Call × Outcome)) (events : List Event)
    (out : Except Failure Report × Progress) : Prop where
  journal : out.2.host.journal = h.journal ++ events
  tree : out.2.host.tree = events.foldl (Event.apply tools) h.tree
  ordered : good ++ bad.toList.map Prod.fst <+: planned
  made : events.filterMap Event.called? =
    good.map (fun c => (c.invocation directory, .ok (some 0))) ++
      bad.toList.map fun b => (b.1.invocation directory, b.2)
  finished : ∀ r, out.1 = .ok r → good = planned ∧ bad = none
  stopped : ∀ c outcome, bad = some (c, outcome) → outcome ≠ .ok (some 0) ∧
    (∃ before present, events = before ++ [.ranTool (c.invocation directory) present outcome]) ∧
    ∃ f, out.1 = .error f ∧ (∀ e, outcome = .error e → f.cause = e.cause) ∧
      ∀ code, outcome = .ok code →
        f.fault? = some (.toolFailed c.tool code) ∧ Command.exitCode f = code.getD 1
  kept : ∀ l text, .wroteFile l text ∈ events → Keeps tools l →
    ∃ x, out.2.host.tree.lookup l = some (.file (.text text) x)

/-! ### The call that fails -/

/-- What a tool that fails makes of its build. -/
theorem blame_of_verdict {tool : Tool} {outcome : Outcome} {f : Failure} (p : Progress)
    (h : tool.verdict outcome = .error f) : outcome ≠ .ok (some 0) ∧
      (∀ e, outcome = .error e → (failure p f).cause = e.cause) ∧
      ∀ code, outcome = .ok code → (failure p f).fault? = some (.toolFailed tool code) ∧
        Command.exitCode (failure p f) = code.getD 1 := by
  have hne : outcome ≠ .ok (some 0) := by
    intro hok
    rw [Tool.verdict_eq_ok_iff.2 hok] at h
    cases h
  refine ⟨hne, ?_, ?_⟩
  · rintro e rfl
    obtain rfl := Except.error.inj h
    rfl
  · rintro code rfl
    have hcode : code ≠ some 0 := fun heq => hne (congrArg _ heq)
    rw [Tool.verdict, if_neg hcode] at h
    obtain rfl := Except.error.inj h
    have hfault : (failure p (Failure.of (.fault (.toolFailed tool code)))).fault? =
      some (.toolFailed tool code) := rfl
    exact ⟨hfault, Command.exitCode_eq_getD hfault hcode⟩

section

variable {g : Generator} {o : Options} {e : Equipment} {h : Host} {p p' : Progress}

theorem Entered.yosysProgram_eq (hp : Entered o h p) :
    Action.yosysProgram p.host = Action.yosysProgram h := by
  obtain ⟨_, hdid⟩ := hp.makes.did fun _ t => (t, .ok none)
  have henvironment : p.host.environment = h.environment := hdid.environment
  rw [Action.yosysProgram, Action.yosysProgram, Host.valueOf?, Host.valueOf?, henvironment]

theorem account_of_performs (hp : Entered o h p)
    (hall : Performs o.directory e.tools p (deeds g o e p) p') (previous : Location) :
    ∃ events, Account e.tools h (calls g o e (Action.yosysProgram h)) p.host.directory
      (calls g o e (Action.yosysProgram h)) none events
      (.ok (report o p' (bitstreamPath o)), p'.leave previous) := by
  obtain ⟨ls, hjournal, htree⟩ := hp.made e.tools
  obtain ⟨events, hdid, -, hcalls⟩ := hall.advances.host
  refine ⟨ls.map .madeDirectory ++ events, ?_⟩
  constructor
  case journal => rw [journal_leave, hdid.journal, hjournal, List.append_assoc]
  case tree => rw [tree_leave, hdid.tree, htree, List.foldl_append]
  case ordered => simp
  case made =>
    rw [List.filterMap_append, filterMap_called?_madeDirectory, hcalls, filterMap_call?_deeds,
      hp.yosysProgram_eq]
    simp [Call.made, Call.invocation, Host.callOf]
  case finished => exact fun _ _ => ⟨rfl, rfl⟩
  case stopped => rintro _ _ ⟨⟩
  case kept =>
    intro l text hmem hkeep
    rw [tree_leave]
    rcases List.mem_append.1 hmem with hmem | hmem
    · obtain ⟨_, -, heq⟩ := List.mem_map.1 hmem
      cases heq
    · exact hall.kept (pairwise_apart_of_beginning List.prefix_rfl) hdid.journal hmem hkeep

/-- What is left of the deeds of a list of which one fails. -/
theorem Fails.account {done : List Deed} {d : Deed} {f : Failure}
    (hfails : Fails o.directory e.tools p done d f p') :
    ∃ (bad : Option (Call × Outcome)) (events : List Event), p.host.Did e.tools events p'.host ∧
      bad.toList.map Prod.fst = d.call?.toList ∧
      events.filterMap Event.called? =
        (done.filterMap Deed.call?).map
          (fun c => (c.invocation p.host.directory, .ok (some 0))) ++
        bad.toList.map (fun b => (b.1.invocation p.host.directory, b.2)) ∧
      ∀ c outcome, bad = some (c, outcome) → c.tool.verdict outcome = .error f ∧
        ∃ before present,
          events = before ++ [.ranTool (c.invocation p.host.directory) present outcome] := by
  obtain ⟨p₁, hdone, hd⟩ := hfails
  obtain ⟨xs, hfirst, -, hcalls⟩ := hdone.advances.host
  obtain ⟨-, -, ⟨hnone, hadv⟩ | ⟨c, _, rfl, -, -⟩⟩ :=
    Deed.advances_of_error hd
  · obtain ⟨ys, hlast, -, hcalls'⟩ := hadv.host
    refine ⟨none, xs ++ ys, hfirst.trans hlast, ?_, ?_, ?_⟩
    · rw [hnone]
      rfl
    · rw [List.filterMap_append, hcalls, hcalls']
      rfl
    · rintro _ _ ⟨⟩
  · rw [Deed.perform, run_act, Action.run_runSuccessfully] at hd
    obtain ⟨hverdict, rfl⟩ := Prod.mk.inj hd
    have hdirectory : p₁.host.directory = p.host.directory := hfirst.directory
    have hcall : p₁.host.callOf c.program c.arguments = c.invocation p.host.directory := by
      rw [Host.callOf, hdirectory]
      rfl
    have hlast := Host.did_runTool e.tools p₁.host c.program c.arguments
    rw [hcall] at hlast hverdict
    refine ⟨some (c, (e.tools (c.invocation p.host.directory) p₁.host.tree).2), _,
      hfirst.trans hlast, rfl, ?_, ?_⟩
    · rw [List.filterMap_append, hcalls]
      rfl
    · intro c' outcome heq
      obtain ⟨rfl, rfl⟩ := Prod.mk.inj (Option.some.inj heq)
      exact ⟨hverdict, xs, _, rfl⟩

theorem account_of_fails (hp : Entered o h p) {done rest : List Deed} {d : Deed} {f : Failure}
    (hdeeds : deeds g o e p = done ++ d :: rest)
    (hfails : Fails o.directory e.tools p done d f p') (previous : Location) :
    ∃ good bad events, Account e.tools h (calls g o e (Action.yosysProgram h)) p.host.directory
      good bad events (.error (failure p' f), p'.leave previous) := by
  obtain ⟨ls, hjournal, htree⟩ := hp.made e.tools
  obtain ⟨bad, events, hdid, hbad, hcalls, hstop⟩ := hfails.account
  have hdone : done <+: deeds g o e p := ⟨d :: rest, hdeeds.symm⟩
  refine ⟨done.filterMap Deed.call?, bad, ls.map .madeDirectory ++ events, ?_⟩
  constructor
  case journal => rw [journal_leave, hdid.journal, hjournal, List.append_assoc]
  case tree => rw [tree_leave, hdid.tree, htree, List.foldl_append]
  case ordered =>
    have hnext : done ++ [d] <+: deeds g o e p := ⟨rest, by simp [hdeeds]⟩
    have hcalled := hnext.filterMap Deed.call?
    rw [filterMap_call?_deeds, hp.yosysProgram_eq, List.filterMap_append] at hcalled
    rw [hbad]
    cases hd : d.call? with
    | none => simpa [hd] using hcalled
    | some c => simpa [hd] using hcalled
  case made =>
    rw [List.filterMap_append, filterMap_called?_madeDirectory, hcalls]
    rfl
  case finished => rintro _ ⟨⟩
  case stopped =>
    intro c outcome heq
    obtain ⟨hverdict, before, present, hevents⟩ := hstop c outcome heq
    obtain ⟨hne, hcause, hcode⟩ := blame_of_verdict p' hverdict
    refine ⟨hne, ⟨ls.map .madeDirectory ++ before, present, ?_⟩, _, rfl, hcause, hcode⟩
    rw [hevents, List.append_assoc]
  case kept =>
    intro l text hmem hkeep
    rw [tree_leave]
    rcases List.mem_append.1 hmem with hmem | hmem
    · obtain ⟨_, -, heq⟩ := List.mem_map.1 hmem
      cases heq
    · exact hfails.kept (pairwise_apart_of_beginning hdone) hdid.journal hmem hkeep

end

/-- A build that only made directories has no call to account for. -/
theorem account_of_makes {tools : Tools} {h : Host} {ps : List Path} {p : Progress} {f : Failure}
    (hm : h.Makes ps p.host) (planned : List Call) (directory : Location) :
    ∃ events, Account tools h planned directory [] none events (.error f, p) := by
  obtain ⟨ls, hdid⟩ := hm.did tools
  refine ⟨ls.map .madeDirectory, ?_⟩
  constructor
  case journal => exact hdid.journal
  case tree => exact hdid.tree
  case ordered => simp
  case made => exact filterMap_called?_madeDirectory ls
  case finished => rintro _ ⟨⟩
  case stopped => rintro _ _ ⟨⟩
  case kept =>
    intro l text hmem
    obtain ⟨_, -, heq⟩ := List.mem_map.1 hmem
    cases heq

theorem run_account (g : Generator) (options : Options) (e : Equipment) (h : Host) :
    ∃ directory good bad events, Account e.tools h
      (calls g (options.within h) e (Action.yosysProgram h)) directory good bad events
      (run g options e h) := by
  generalize hout : run g options e h = out
  have hends : Ends g options e h out := hout ▸ run_ends g options e h
  cases hends with
  | refused =>
    have hm : h.Makes [] (Progress.start h).host := .refl h
    obtain ⟨events, haccount⟩ := account_of_makes hm _ h.directory
    exact ⟨_, _, _, events, haccount⟩
  | outside _ _ hm _ =>
    obtain ⟨events, haccount⟩ := account_of_makes hm _ h.directory
    exact ⟨_, _, _, events, haccount⟩
  | reached hp hall =>
    obtain ⟨events, haccount⟩ := account_of_performs hp hall h.directory
    exact ⟨_, _, _, events, haccount⟩
  | stopped hp hdeeds hfails =>
    obtain ⟨good, bad, events, haccount⟩ := account_of_fails hp hdeeds hfails h.directory
    exact ⟨_, good, bad, events, haccount⟩

/-! ### The command line -/

/-- The exit code of a build command. -/
theorem code_of_build {tools : Tools} {arguments : List String} {h : Host}
    {a : Command.BuildArguments}
    (ha : Command.parse (h.environment.lookup "XILINX_ISE_PATH") arguments = .ok (.build a)) :
    (Command.run tools arguments h).1.code = match Command.plan a h with
      | .error f => Command.exitCode f
      | .ok plan =>
        match (run plan.design.generator plan.options (Command.equipment tools plan.design)
          h).1 with
        | .error f => Command.exitCode f
        | .ok _ => 0 := by
  rw [Command.run, ha]
  simp only [Command.runBuild]
  cases Command.plan a h with
  | error f => rfl
  | ok plan =>
    cases hrun : run plan.design.generator plan.options (Command.equipment tools plan.design) h with
    | mk r progress =>
      cases r with
      | error f =>
        simp only [hrun]
        rfl
      | ok report =>
        simp only [hrun]
        cases a.format <;> rfl

/-- **A build stops at the first tool that fails**, and the exit code of that tool becomes the exit
code of the command line, which is zero only if the build came to its end. -/
theorem build_fails_stop :
    (∀ (g : Generator) (options : Options) (e : Equipment) (h : Host),
      ∃ directory good bad events, Account e.tools h
        (calls g (options.within h) e (Action.yosysProgram h)) directory good bad events
        (run g options e h)) ∧
    ∀ (tools : Tools) (arguments : List String) (h : Host) (a : Command.BuildArguments),
      Command.parse (h.environment.lookup "XILINX_ISE_PATH") arguments = .ok (.build a) →
      ((Command.run tools arguments h).1.code = 0 ↔ ∃ plan report progress,
        Command.plan a h = .ok plan ∧
        run plan.design.generator plan.options (Command.equipment tools plan.design) h =
          (.ok report, progress)) ∧
      ∀ plan f progress tool code, Command.plan a h = .ok plan →
        run plan.design.generator plan.options (Command.equipment tools plan.design) h =
          (.error f, progress) →
        f.fault? = some (.toolFailed tool code) → code ≠ some 0 →
        (Command.run tools arguments h).1.code = code.getD 1 := by
  refine ⟨run_account, fun tools arguments h a ha => ⟨?_, ?_⟩⟩
  · rw [code_of_build ha]
    cases hplan : Command.plan a h with
    | error f => simp [Command.exitCode_ne_zero]
    | ok plan =>
      cases hrun : run plan.design.generator plan.options
          (Command.equipment tools plan.design) h with
      | mk r progress =>
        cases r with
        | error f => simp [hrun, Command.exitCode_ne_zero]
        | ok report => simp [hrun]
  · intro plan f progress tool code hplan hrun hfault hcode
    rw [code_of_build ha, hplan]
    simp only [hrun]
    exact Command.exitCode_eq_getD hfault hcode

/-- A project in the directory `/p`. -/
def brokenProject : Host :=
  Host.start ⟨(FileTree.empty.plant ["p", "Isebuild.toml"] (.file (.text
    "[design]\ndevice = \"xc6slx9\"\nverilog = \"top.v\"\n") false)).plant ["p", "top.v"]
    (.file (.text "module top;\nendmodule\n") false), ["p"]⟩ []

/-- Programs that end with exit code three and do nothing. -/
def brokenTools : Tools := fun _ t => (t, .ok (some 3))

def sourcelessArguments : Command.BuildArguments :=
  ⟨none, none, none, none, none, true, false, .human⟩

/-- The build of a plan with programs that fail. -/
def brokenBuild (plan : Command.Plan) : Except Failure Report × Progress :=
  run plan.design.generator plan.options (Command.equipment brokenTools plan.design) brokenProject

/-- The fault that a build ended with, and the calls that it made. -/
def blamed (out : Except Failure Report × Progress) : Option Fault × List Invocation :=
  (match out.1 with
    | .error f => f.fault?
    | .ok _ => none,
    (out.2.host.journal.filterMap Event.called?).map Prod.fst)

/-- The control script ends with exit code three, and so does the command. -/
theorem fails_stop_brokenProject :
    ∃ plan f progress, Command.plan sourcelessArguments brokenProject = .ok plan ∧
      brokenBuild plan = (.error f, progress) ∧
      f.fault? = some (.toolFailed .script (some 3)) ∧
      (progress.host.journal.filterMap Event.called?).map Prod.fst =
        [⟨⟨"bash"⟩, ["build_top.sh"], ["p", "build"]⟩] ∧
      (Command.run brokenTools ["build", "--no-source"] brokenProject).1.code = 3 := by
  have hparse : Command.parse (brokenProject.environment.lookup "XILINX_ISE_PATH")
      ["build", "--no-source"] = .ok (.build sourcelessArguments) := by
    decide +kernel
  have hends : (Command.plan sourcelessArguments brokenProject).toOption.map
      (fun plan => blamed (brokenBuild plan)) = some (some (Fault.toolFailed .script (some 3)),
        [⟨⟨"bash"⟩, ["build_top.sh"], ["p", "build"]⟩]) := by
    decide +kernel
  obtain ⟨plan, hplan, hblamed⟩ := Option.map_eq_some_iff.1 hends
  obtain ⟨hfault, hcalls⟩ := Prod.mk.inj hblamed
  have hplan := eq_ok_of_toOption hplan
  cases hrun : brokenBuild plan with
  | mk r progress =>
    rw [hrun] at hfault hcalls
    cases r with
    | ok report => cases hfault
    | error f =>
      obtain ⟨-, hcode⟩ := build_fails_stop.2 brokenTools _ brokenProject _ hparse
      exact ⟨plan, f, progress, hplan, hrun, hfault, hcalls,
        hcode plan f progress .script (some 3) hplan hrun hfault (by decide)⟩

end Build

end FpgaFlow
