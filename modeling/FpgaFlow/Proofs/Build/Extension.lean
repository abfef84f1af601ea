import FpgaFlow.Proofs.Build.FailStop
import FpgaFlow.Proofs.Build.Trace

/-!
# Builds that go on to the tools

The stages of a build that runs its tools are the stages of the build that only
generates, and one more after them (`stages_running`).  What that last stage can do is
read off its deeds (`Prolongs`): it writes the control script and calls it.

**Main statement** `run_extends`: a build that only generates is a beginning of the
build that also runs the tools.  If it fails both are the same, and else the longer
build goes on from the tree that the shorter one leaves.
-/

namespace FpgaFlow

namespace Build

/-- The options with the tools run, or not. -/
def Options.running (o : Options) (run : Bool) : Options :=
  { o with run := run }

/-- The path of the control script of a build. -/
def Options.scriptPath (o : Options) : Path :=
  o.directory.child (ControlScript.fileName o.name)

/-- The stage of a build that comes after all others. -/
def lastStage (o : Options) (e : Equipment) : Stage (Option Path) := do
  Stage.enter .runScript
  return some (← runTools o e)

/-- **The tools come last.** -/
theorem stages_running (g : Generator) (o : Options) (e : Equipment) :
    stages g (o.running true) e = stages g (o.running false) e >>= fun _ => lastStage o e := by
  have htools : runTools (o.running true) e = runTools o e := rfl
  have hgenerate : generate g (o.running true) e = generate g (o.running false) e := rfl
  simp only [stages, lastStage, htools, hgenerate, bind_assoc]
  rfl

section

variable {g : Generator} {o options : Options} {e : Equipment} {h : Host} {p p' : Progress}

/-! ### The last stage -/

theorem mem_written?_iff {events : List Event} {l : Location} {text : String} :
    (l, text) ∈ events.filterMap Event.written? ↔ .wroteFile l text ∈ events := by
  rw [List.mem_filterMap]
  constructor
  · rintro ⟨event, hmem, hevent⟩
    cases event with
    | wroteFile m t =>
      obtain ⟨rfl, rfl⟩ := Prod.mk.inj (Option.some.inj hevent)
      exact hmem
    | madeDirectory m => cases hevent
    | ranTool call present outcome => cases hevent
  · exact fun hmem => ⟨_, hmem, rfl⟩

theorem mem_called?_of_mem {events : List Event} {call : Invocation} {present : List String}
    {outcome : Outcome} (h : .ranTool call present outcome ∈ events) :
    (call, outcome) ∈ events.filterMap Event.called? :=
  List.mem_filterMap.2 ⟨_, h, rfl⟩

/-- What the last stage did: it entered its state, and it wrote no file and called no program but
the control script. -/
structure Prolongs (o : Options) (e : Equipment) (p : Progress) (events : List Event)
    (p' : Progress) : Prop where
  did : p.host.Did e.tools events p'.host
  states : p'.states = p.states ++ [.runScript]
  writes : ∀ l text, .wroteFile l text ∈ events → l = o.scriptPath.location
  calls : ∀ call present outcome, .ranTool call present outcome ∈ events →
    call = (scriptCall o).invocation p.host.directory

/-- The deeds of the last stage are about the control script only. -/
theorem prolongs_of_advances (habs : o.directory.isAbsolute = true) {ds : List Deed}
    {setup : Except Failure (List String)} (hds : ds <+: toolDeeds o setup)
    (hstates : ds.filterMap Deed.state? = [.runScript]) {files : List String}
    {calls : List (Invocation × Outcome)}
    (hadv : Advances o.directory e.tools p (ds.filterMap Deed.state?) files
      (ds.filterMap Deed.written?) calls p')
    (hcalls : ∀ c ∈ calls, c.1 = (scriptCall o).invocation p.host.directory) :
    ∃ events, Prolongs o e p events p' := by
  obtain ⟨events, hdid, hleads, hcalled⟩ := hadv.host
  refine ⟨events, hdid, hstates ▸ hadv.states, fun l text hmem => ?_, fun c _ _ hmem => ?_⟩
  · obtain ⟨w, hw, -, v, hv⟩ := mem_right_of_forall₂ hleads.flip (mem_written?_iff.2 hmem)
    have hscript : w = (ControlScript.fileName o.name, setup.map (scriptText o)) :=
      List.mem_singleton.1 ((hds.filterMap Deed.written?).subset hw)
    rw [hscript] at hv
    exact View.location_of_fileTarget (Path.isAbsolute_child habs _) hv
  · exact hcalls _ (hcalled ▸ mem_called?_of_mem hmem)

theorem eq_scriptCall_of_mem {setup : Except Failure (List String)} {c : Call}
    (h : .call c ∈ toolDeeds o setup) : c = scriptCall o := by
  have hc : c ∈ (toolDeeds o setup).filterMap Deed.call? := List.mem_filterMap.2 ⟨_, h, rfl⟩
  exact List.mem_singleton.1 hc

/-- A call of the control script from the directory of the build. -/
theorem eq_of_mem_made {setup : Except Failure (List String)} {ds : List Deed}
    (hds : ds <+: toolDeeds o setup) {outcome : Outcome} {c : Invocation × Outcome}
    (hc : c ∈ (ds.filterMap Deed.call?).map fun c => c.made p.host outcome) :
    c.1 = (scriptCall o).invocation p.host.directory := by
  obtain ⟨c', hc', rfl⟩ := List.mem_map.1 hc
  obtain rfl : c' = scriptCall o := List.mem_singleton.1 ((hds.filterMap Deed.call?).subset hc')
  rfl

/-- The first deed of the last stage is to enter its state, which does not fail. -/
theorem states_of_beginning {setup : Except Failure (List String)} {done rest : List Deed}
    {d : Deed} (hdeeds : toolDeeds o setup = done ++ d :: rest) (hd : d.state? = none) :
    done.filterMap Deed.state? = [.runScript] := by
  have hall : (toolDeeds o setup).filterMap Deed.state? = [.runScript] := rfl
  have hfirst : (Deed.enter .runScript).state? = some .runScript := rfl
  cases done with
  | nil =>
    obtain ⟨rfl, -⟩ := List.cons.inj hdeeds
    cases hd
  | cons a done =>
    obtain ⟨rfl, -⟩ := List.cons.inj hdeeds
    rw [hdeeds, List.filterMap_append, List.filterMap_cons_some hfirst, List.cons_append] at hall
    obtain ⟨hrest, -⟩ := List.append_eq_nil_iff.1 (List.cons.inj hall).2
    rw [List.filterMap_cons_some hfirst, hrest]

/-- **What the last stage does**: it comes to its end and notes the control script, or it fails. -/
theorem lastStage_prolongs (habs : o.directory.isAbsolute = true) (p : Progress) :
    ∃ r p' events, ExceptT.run (lastStage o e) p = (r, p') ∧ Prolongs o e p events p' ∧
      ∀ b, r = .ok b → p'.files = p.files ++ [ControlScript.fileName o.name] := by
  have hstage : Unfolds o.directory e.tools (lastStage o e) p
      (toolDeeds o (setupCommands o p.host.toView)) (· = bitstreamPath (o.running true)) :=
    unfolds_script (o.running true) e _ rfl
  rcases hstage with ⟨b, p', hall, hrun, -⟩ | ⟨done, d, rest, f, p', hdeeds, hfails, hrun⟩
  · have hadv := hall.advances
    obtain ⟨events, hprolongs⟩ := prolongs_of_advances habs List.prefix_rfl rfl hadv
      fun _ => eq_of_mem_made List.prefix_rfl
    exact ⟨.ok b, p', events, hrun, hprolongs, fun _ _ => hadv.files⟩
  · obtain ⟨p₁, hdone, hd⟩ := hfails
    have hbeginning : done <+: toolDeeds o (setupCommands o p.host.toView) :=
      ⟨d :: rest, hdeeds.symm⟩
    obtain ⟨hstate, -, hcase⟩ := Deed.advances_of_error hd
    have hstates := states_of_beginning hdeeds hstate
    obtain ⟨last, hlast, hcalls⟩ : ∃ last, Advances o.directory e.tools p₁ [] [] [] last p' ∧
        ∀ c ∈ last, c.1 = (scriptCall o).invocation p.host.directory := by
      rcases hcase with ⟨-, hadv⟩ | ⟨c, outcome, rfl, -, hadv⟩
      · exact ⟨[], hadv, fun _ hc => by cases hc⟩
      · have hmem : .call c ∈ toolDeeds o (setupCommands o p.host.toView) := by
          rw [hdeeds]
          simp
        obtain rfl := eq_scriptCall_of_mem hmem
        refine ⟨_, hadv, fun c' hc' => ?_⟩
        rw [List.mem_singleton.1 hc', Call.made, Host.callOf, hdone.advances.directory_eq]
        rfl
    have hadv := hdone.advances.trans hlast
    simp only [List.append_nil] at hadv
    obtain ⟨events, hprolongs⟩ := prolongs_of_advances habs hbeginning hstates hadv
      fun c hc => (List.mem_append.1 hc).elim (eq_of_mem_made hbeginning) (hcalls c)
    refine ⟨.error f, p', events, hrun, hprolongs, ?_⟩
    rintro _ ⟨⟩

end

/-! ### Whole builds -/

section

variable {g : Generator} {options : Options} {e : Equipment} {h : Host} {p : Progress}

/-- What a build makes of the end of its stages when it goes back. -/
def conclude (o : Options) (previous : Location) :
    Except Failure (Option Path) × Progress → Except Failure Report × Progress
  | (.ok bitstream, p) => (.ok (report o p bitstream), p.leave previous)
  | (.error f, p) => (.error (failure p f), p.leave previous)

/-- A build that is not refused goes into its directory, through its stages and back. -/
theorem run_eq {wd : Path} (hready : prepare options e h = .ok wd) :
    run g options e h =
      match ExceptT.run (enterDirectory (options.within h)) (Progress.start h) with
      | (.error f, p) => (.error f, p)
      | (.ok (), p) => conclude (options.within h) h.directory
          (ExceptT.run (stages g (options.within h) e) p) := by
  obtain ⟨-, -, rfl⟩ := prepare_eq_ok_iff.1 hready
  rw [run, hready, Options.within]
  dsimp only
  cases ExceptT.run (enterDirectory (options.absolutize h.workingDirectory))
      (Progress.start h) with
  | mk r p =>
    cases r with
    | error f => rfl
    | ok u =>
      dsimp only
      cases ExceptT.run (stages g (options.absolutize h.workingDirectory) e) p with
      | mk r p' => cases r <;> rfl

/-- What a build that runs its tools does after everything that a build did which only generates,
with the report `r₀`. -/
structure Extends (o : Options) (e : Equipment) (r₀ : Report) (p₀ : Progress)
    (events : List Event) (out : Except Failure Report × Progress) : Prop where
  journal : out.2.host.journal = p₀.host.journal ++ events
  tree : out.2.host.tree = events.foldl (Event.apply e.tools) p₀.host.tree
  writes : ∀ l text, .wroteFile l text ∈ events → l = o.scriptPath.location
  calls : ∀ call present outcome, .ranTool call present outcome ∈ events →
    call.program = ⟨"bash"⟩ ∧ call.arguments = [ControlScript.fileName o.name]
  states : trace out.1 =
    r₀.states.dropLast ++ [.runScript, if out.1.isOk then .done else .failed]
  files : ∀ r, out.1 = .ok r → r.files = r₀.files ++ [ControlScript.fileName o.name]

theorem extends_of_prolongs {o : Options} {p₁ p₂ : Progress} {events : List Event}
    {r : Except Failure (Option Path)} {b : Option Path} {previous : Location}
    (hprolongs : Prolongs o e p₁ events p₂)
    (hend : ∀ b, r = .ok b → p₂.files = p₁.files ++ [ControlScript.fileName o.name]) :
    Extends o e (report (o.running false) p₁ b) (p₁.leave previous) events
      (conclude (o.running true) previous (r, p₂)) := by
  have hleave : (conclude (o.running true) previous (r, p₂)).2 = p₂.leave previous := by
    cases r <;> rfl
  constructor
  case journal => rw [hleave, journal_leave, journal_leave, hprolongs.did.journal]
  case tree => rw [hleave, tree_leave, tree_leave, hprolongs.did.tree]
  case writes => exact hprolongs.writes
  case calls =>
    intro call present outcome hmem
    rw [hprolongs.calls call present outcome hmem]
    exact ⟨rfl, rfl⟩
  case states =>
    have hbefore : (report (o.running false) p₁ b).states.dropLast = p₁.states :=
      List.dropLast_concat
    rw [hbefore]
    cases r with
    | ok b' =>
      show p₂.states ++ [.done] = _
      rw [hprolongs.states, List.append_assoc]
      rfl
    | error f =>
      show p₂.states ++ [.failed] = _
      rw [hprolongs.states, List.append_assoc]
      rfl
  case files =>
    intro r₁ hr₁
    cases r with
    | ok b' =>
      rw [← Except.ok.inj hr₁]
      exact hend b' rfl
    | error f => cases hr₁

/-- The tools change nothing of a build that fails without them. Of a build that does not the last
stage goes on from where the others end. -/
theorem run_running (g : Generator) (options : Options) (e : Equipment) (h : Host) :
    (∃ f p₀, ∀ tools, run g (options.running tools) e h = (.error f, p₀)) ∨
    ∃ p₁ b, run g (options.running false) e h =
        conclude ((options.within h).running false) h.directory (.ok b, p₁) ∧
      ∃ r p₂ events, run g (options.running true) e h =
          conclude ((options.within h).running true) h.directory (r, p₂) ∧
        Prolongs (options.within h) e p₁ events p₂ ∧
        ∀ b, r = .ok b → p₂.files = p₁.files ++ [ControlScript.fileName options.name] := by
  have habs := options.isAbsolute_within h
  have hprepare (b : Bool) : prepare (options.running b) e h = prepare options e h :=
    prepare_congr rfl e h
  cases hready : prepare options e h with
  | error f => exact .inl ⟨f, _, fun tools => run_of_refused ((hprepare tools).trans hready)⟩
  | ok wd =>
  have hrun (b : Bool) : run g (options.running b) e h =
      match ExceptT.run (enterDirectory (options.within h)) (Progress.start h) with
      | (.error f, p) => (.error f, p)
      | (.ok (), p) => conclude ((options.within h).running b) h.directory
          (ExceptT.run (stages g ((options.within h).running b) e) p) :=
    run_eq ((hprepare b).trans hready)
  have hshort := hrun false
  have hlong := hrun true
  cases henter : ExceptT.run (enterDirectory (options.within h)) (Progress.start h) with
  | mk r p =>
    cases r with
    | error f =>
      simp only [henter] at hrun
      exact .inl ⟨f, p, hrun⟩
    | ok u =>
      simp only [henter, stages_running, run_bind] at hshort hlong
      cases hstages : ExceptT.run (stages g ((options.within h).running false) e) p with
      | mk r p₁ =>
        cases r with
        | error f =>
          simp only [hstages] at hshort hlong
          refine .inl ⟨failure p₁ f, p₁.leave h.directory, fun tools => ?_⟩
          cases tools
          · exact hshort
          · exact hlong
        | ok b =>
          obtain ⟨r, p₂, events, hlast, hprolongs, hend⟩ :=
            lastStage_prolongs (o := options.within h) (e := e) habs p₁
          simp only [hstages, hlast] at hshort hlong
          exact .inr ⟨p₁, b, hshort, r, p₂, events, hlong, hprolongs, hend⟩

theorem running_of_error {f : Failure} {p₀ : Progress}
    (hshort : run g (options.running false) e h = (.error f, p₀)) :
    run g (options.running true) e h = (.error f, p₀) := by
  rcases run_running g options e h with ⟨f', p', hsame⟩ | ⟨p₁, b, hok, -⟩
  · rw [hsame true, ← hsame false, hshort]
  · rw [hok] at hshort
    cases congrArg Prod.fst hshort

theorem extends_of_ok {r₀ : Report} {p₀ : Progress}
    (hshort : run g (options.running false) e h = (.ok r₀, p₀)) :
    ∃ events, Extends (options.within h) e r₀ p₀ events (run g (options.running true) e h) := by
  rcases run_running g options e h with
    ⟨f', p', hsame⟩ | ⟨p₁, b, hok, r, p₂, events, hlong, hprolongs, hend⟩
  · rw [hsame false] at hshort
    cases congrArg Prod.fst hshort
  · rw [hok] at hshort
    obtain ⟨hreport, rfl⟩ := Prod.mk.inj hshort
    rw [hlong, ← Except.ok.inj hreport]
    exact ⟨events, extends_of_prolongs hprolongs hend⟩

/-- **A build that only generates is a beginning of the build that runs the tools.** If it fails the
other build fails in the same way, with the same trace and the same tree. If it succeeds the other
build first does the same, from the same tree on, and after that it writes the control script and no
other file. -/
theorem run_extends (g : Generator) (options : Options) (e : Equipment) (h : Host) :
    match run g (options.running false) e h with
    | (.error f, p₀) => run g (options.running true) e h = (.error f, p₀)
    | (.ok r₀, p₀) => ∃ before events, p₀.host.journal = h.journal ++ before ∧
        p₀.host.tree = before.foldl (Event.apply e.tools) h.tree ∧
        Extends (options.within h) e r₀ p₀ events (run g (options.running true) e h) := by
  obtain ⟨_, _, _, before, haccount⟩ := run_account g (options.running false) e h
  have hjournal := haccount.journal
  have htree := haccount.tree
  cases hshort : run g (options.running false) e h with
  | mk r p₀ =>
    rw [hshort] at hjournal htree
    cases r with
    | error f => exact running_of_error hshort
    | ok r₀ =>
      obtain ⟨events, hextends⟩ := extends_of_ok hshort
      exact ⟨before, events, hjournal, htree, hextends⟩

end

end Build

end FpgaFlow
