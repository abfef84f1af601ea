import FpgaFlow.Programs
import FpgaFlow.Proofs.Build.Extension

/-!
# The commands that set up the tools

A build that runs its tools looks for the commands that set them up when everything
else is generated (`deeds_eq`).  Where it finds none it stops before its control script,
and else the script has these commands and no others; what can still go wrong is to
write the script or to call it (`fails_toolDeeds`).

**Main statement** `run_sources`: this is what a build does that comes to its control
script, with the tree as the build has left it by then.
-/

namespace FpgaFlow

/-- A call that cannot be made at all is no fault of the build. -/
def Tools.Plain (tools : Tools) : Prop :=
  ∀ call t f, (tools call t).2 = .error f → f.fault? = none

theorem Tools.plain_installed (environment : List (String × String)) (programs : Programs) :
    (Tools.installed environment programs).Plain := by
  intro call t f hf
  rw [installed] at hf
  split at hf
  next => cases hf
  next =>
    rw [← Except.error.inj hf]
    rfl

namespace Build

/-- What a build made of the commands that set up its tools. Without them nothing is in the place
of the control script. With them the script is there, if it could be written, and no toolchain is
missing. -/
def Sources (o : Options) (h : Host) (out : Except Failure Report × Progress) :
    Except Failure (List String) → Prop
  | .error f => writtenSince h out.2 o.scriptPath.location = [] ∧
      ∃ f', out.1 = .error f' ∧ f'.cause = f.cause
  | .ok commands =>
      (writtenSince h out.2 o.scriptPath.location = [scriptText o commands] ∨
        writtenSince h out.2 o.scriptPath.location = [] ∧
          ∃ f e, out.1 = .error f ∧ f.cause = .io e) ∧
      ∀ f root, out.1 = .error f → f.fault? ≠ some (.toolchainNotFound root)

section

variable {g : Generator} {o options : Options} {e : Equipment} {h : Host} {p p₁ p' : Progress}
  {setup : Except Failure (List String)}

theorem deeds_eq (hrun : o.run = true) :
    deeds g o e p = generating g o e p ++ toolDeeds o (Build.setup g o e p) := by
  rw [deeds, if_pos hrun]

theorem exists_of_settled {α : Type} {r : Except Failure α} {u : Unit}
    (h : Build.settled r = .ok u) : ∃ a, r = .ok a := by
  obtain ⟨a, ha, -⟩ := map_eq_ok_iff.1 h
  exact ⟨a, ha⟩

theorem settled_of_await {directory : Path} {tools : Tools} {answer r : Except Failure Unit}
    (h : ExceptT.run (Deed.perform directory tools (.await answer)) p = (r, p')) : answer = r :=
  (Prod.mk.inj h).1

/-- The commands are there when the deeds of the last stage are done up to the script. -/
theorem exists_commands_of_performs {directory : Path} {tools : Tools} {d : Deed}
    {ds : List Deed}
    (hall : Performs directory tools p (d :: .await (settled setup) :: ds) p') :
    ∃ commands, setup = .ok commands := by
  cases hall with
  | cons _ hrest =>
    cases hrest with
    | cons hawait _ => exact exists_of_settled (settled_of_await hawait)

/-- **Where the last stage can fail**: at its commands, at writing the script, or at its call. -/
theorem fails_toolDeeds {tools : Tools} {done rest : List Deed} {d : Deed} {f : Failure}
    (hdeeds : toolDeeds o setup = done ++ d :: rest)
    (hfails : Fails o.directory tools p done d f p') :
    (setup = .error f ∧ done.filterMap Deed.written? = []) ∨
    ∃ commands, setup = .ok commands ∧
      (done.filterMap Deed.written? = [] ∧ (∃ err, f.cause = .io err) ∨
        done.filterMap Deed.written? =
            [(ControlScript.fileName o.name, .ok (scriptText o commands))] ∧
          ∃ call t, Tool.script.verdict (tools call t).2 = .error f) := by
  obtain ⟨p₁, hdone, hd⟩ := hfails
  simp only [toolDeeds, store, List.cons_append, List.nil_append, List.cons_eq_append_iff,
    List.nil_eq_append_iff, List.cons.injEq] at hdeeds
  -- The deed that fails is one of the five; those before it have been done.
  obtain ⟨-, rfl, -⟩ | ⟨_, rfl, hdeeds⟩ := hdeeds
  · cases (Prod.mk.inj hd).1
  obtain ⟨rfl, rfl, -⟩ | ⟨_, rfl, hdeeds⟩ := hdeeds
  · have hsettled := settled_of_await hd
    cases setup with
    | ok commands => cases hsettled
    | error f' =>
      obtain rfl : f' = f := Except.error.inj hsettled
      exact .inl ⟨rfl, rfl⟩
  obtain ⟨commands, rfl⟩ := exists_commands_of_performs hdone
  refine .inr ⟨commands, rfl, ?_⟩
  obtain ⟨rfl, rfl, -⟩ | ⟨_, rfl, hdeeds⟩ := hdeeds
  · exact .inl ⟨rfl, Deed.cause_of_write hd⟩
  obtain ⟨-, rfl, -⟩ | ⟨_, rfl, hdeeds⟩ := hdeeds
  · cases (Prod.mk.inj hd).1
  obtain ⟨rfl, rfl, -⟩ | ⟨_, -, -, hnil⟩ := hdeeds
  · rw [Deed.perform, run_act, Action.run_runSuccessfully] at hd
    exact .inr ⟨rfl, _, _, (Prod.mk.inj hd).1⟩
  · cases hnil

/-- A script that fails is not a missing toolchain. -/
theorem fault?_ne_of_verdict {tools : Tools} (htools : tools.Plain) {call : Invocation}
    {t : FileTree} {f : Failure} (h : Tool.script.verdict (tools call t).2 = .error f)
    (root : Path) : f.fault? ≠ some (.toolchainNotFound root) := by
  intro hfault
  cases houtcome : (tools call t).2 with
  | error f' =>
    rw [houtcome] at h
    obtain rfl : f' = f := Except.error.inj h
    rw [htools call t f' houtcome] at hfault
    cases hfault
  | ok code =>
    rw [houtcome, Tool.verdict] at h
    split at h
    next => cases h
    next =>
      rw [← Except.error.inj h] at hfault
      cases hfault

theorem fault?_of_io {f : Failure} {err : IoError} (h : f.cause = .io err) : f.fault? = none := by
  rw [Failure.fault?, h]

/-- The place of the control script is not that of a file that comes before it. -/
theorem avoids_script {w : String × Except Failure String}
    (hw : w ∈ designFiles g o e p ++ [constraintFile g o e p]) :
    Avoids o.directory o.scriptPath.location w := by
  intro v hv
  obtain ⟨ext, hne, hextended⟩ := exists_ending_of_mem hw
  have hending := View.ending_of_fileTarget hextended hv
  have hscript : View.endingAt o.scriptPath.location = some "sh".toList :=
    View.endingAt_location (extended_script o) (by decide) o.directory
  rw [hscript, Option.some.injEq, String.toList_inj] at hending
  exact hne hending.symm

/-- What a build made of its commands that did the deeds `more` of its last stage. -/
theorem written_of_more (hp : Entered o h p) (habs : o.directory.isAbsolute = true)
    (hrun : o.run = true) {more : List Deed}
    (hmore : more <+: toolDeeds o (Build.setup g o e p)) {states : List BuildState}
    {files : List String} {calls : List (Invocation × Outcome)}
    (hadv : Advances o.directory e.tools p states files
      ((generating g o e p ++ more).filterMap Deed.written?) calls p') (previous : Location) :
    (more.filterMap Deed.written? = [] →
      writtenSince h (p'.leave previous) o.scriptPath.location = []) ∧
    ∀ commands, more.filterMap Deed.written? =
        [(ControlScript.fileName o.name, .ok (scriptText o commands))] →
      writtenSince h (p'.leave previous) o.scriptPath.location = [scriptText o commands] := by
  have hdone : generating g o e p ++ more <+: deeds g o e p := by
    rw [deeds_eq hrun]
    exact (List.prefix_append_right_inj _).2 hmore
  constructor
  · intro hnone
    refine writtenSince_of_avoids hp hadv (fun w hw => ?_) previous
    rw [List.filterMap_append, hnone, List.append_nil, filterMap_written?_generating] at hw
    exact avoids_script hw
  · intro commands hscript
    have hmem : (ControlScript.fileName o.name, .ok (scriptText o commands)) ∈
        (generating g o e p ++ more).filterMap Deed.written? := by
      rw [List.filterMap_append, hscript]
      simp
    obtain ⟨text, htext, hwritten⟩ := writtenSince_of_mem hp habs hdone hadv hmem previous
    rw [← Except.ok.inj htext] at hwritten
    exact hwritten

/-- A build with all its deeds done wrote the commands that it found. -/
theorem sources_of_performs (hp : Entered o h p) (habs : o.directory.isAbsolute = true)
    (hrun : o.run = true) (hall : Performs o.directory e.tools p (deeds g o e p) p')
    {r : Report} (previous : Location) :
    Sources o h (.ok r, p'.leave previous) (Build.setup g o e p) := by
  have hadv := hall.advances
  rw [deeds_eq hrun] at hall hadv
  obtain ⟨p₁, -, hlast⟩ := hall.split
  obtain ⟨commands, hcommands⟩ := exists_commands_of_performs hlast
  rw [hcommands]
  refine ⟨.inl ?_, nofun⟩
  refine (written_of_more hp habs hrun List.prefix_rfl hadv previous).2 commands ?_
  rw [hcommands]
  rfl

/-- A build that failed in its last stage. -/
theorem sources_of_fails (htools : e.tools.Plain) (hp : Entered o h p)
    (habs : o.directory.isAbsolute = true) (hrun : o.run = true) {more rest : List Deed} {d : Deed}
    {f : Failure} (hdeeds : toolDeeds o (Build.setup g o e p) = more ++ d :: rest)
    (hfails : Fails o.directory e.tools p (generating g o e p ++ more) d f p')
    (previous : Location) :
    Sources o h (.error (failure p' f), p'.leave previous) (Build.setup g o e p) := by
  obtain ⟨_, hadv⟩ := hfails.advances
  obtain ⟨hnone, hscript⟩ := written_of_more hp habs hrun ⟨d :: rest, hdeeds.symm⟩ hadv previous
  obtain ⟨p₂, hdone, hd⟩ := hfails
  obtain ⟨p₁, -, hmore⟩ := hdone.split
  obtain ⟨hsetup, hwritten⟩ |
      ⟨commands, hsetup, ⟨hwritten, err, hio⟩ | ⟨hwritten, call, t, hcall⟩⟩ :=
    fails_toolDeeds hdeeds ⟨p₂, hmore, hd⟩
  · rw [hsetup]
    exact ⟨hnone hwritten, _, rfl, rfl⟩
  · rw [hsetup]
    refine ⟨.inr ⟨hnone hwritten, _, err, rfl, hio⟩, fun f' root hf' => ?_⟩
    rw [← Except.error.inj hf', fault?_of_io (f := failure p' f) hio]
    exact nofun
  · rw [hsetup]
    refine ⟨.inl (hscript commands hwritten), fun f' root hf' => ?_⟩
    rw [← Except.error.inj hf']
    exact fault?_ne_of_verdict htools hcall root

/-- What was done before the last stage is a beginning of what was done at all. -/
theorem exists_setup (hp : Entered o h p)
    (hgenerating : Performs o.directory e.tools p (generating g o e p) p₁) {later : List Event}
    (hlater : p'.host.journal = p₁.host.journal ++ later) (previous : Location) :
    ∃ v before after, (p'.leave previous).host.journal = h.journal ++ (before ++ after) ∧
      v.tree = before.foldl (Event.apply e.tools) h.tree ∧
      Build.setup g o e p = setupCommands o v := by
  obtain ⟨before, hjournal, htree, -⟩ := hp.events hgenerating.advances
  refine ⟨p₁.host.toView, before, later, ?_, htree, ?_⟩
  · rw [journal_leave, hlater, hjournal, List.append_assoc]
  · rw [Build.setup, after, hgenerating.run]

/-- **What a build makes of the commands that it finds**, when it comes to its control script. The
commands are looked for in the tree as it is by then. -/
theorem run_sources (htools : e.tools.Plain) (hrun : options.run = true)
    (hreach : .runScript ∈ trace (run g options e h).1) :
    ∃ v before after,
      (run g options e h).2.host.journal = h.journal ++ (before ++ after) ∧
      v.tree = before.foldl (Event.apply e.tools) h.tree ∧
      Sources (options.within h) h (run g options e h) (setupCommands (options.within h) v) := by
  have habs := options.isAbsolute_within h
  have hrun' : (options.within h).run = true := hrun
  generalize hout : run g options e h = out at hreach ⊢
  have hends : Ends g options e h out := hout ▸ run_ends g options e h
  cases hends with
  | refused hprepare =>
    rw [trace_eq_nil (untraced_of_prepare hprepare).1] at hreach
    cases hreach
  | outside hbuilding =>
    rw [trace_eq_nil hbuilding] at hreach
    cases hreach
  | @reached p p' hp hall =>
    have hsources := sources_of_performs hp habs hrun' hall
      (r := report (options.within h) p' (bitstreamPath (options.within h))) h.directory
    rw [deeds_eq hrun'] at hall
    obtain ⟨p₁, hgenerating, hlast⟩ := hall.split
    obtain ⟨_, hdid, -⟩ := hlast.advances.host
    obtain ⟨v, before, after, hjournal, htree, hsetup⟩ :=
      exists_setup hp hgenerating hdid.journal h.directory
    rw [hsetup] at hsources
    exact ⟨v, before, after, hjournal, htree, hsources⟩
  | @stopped p p' done rest d f hp hdeeds hfails =>
    have hscript : .runScript ∈ done.filterMap Deed.state? := by
      rw [trace_of_fails hp hfails] at hreach
      simpa using hreach
    obtain ⟨more, rfl⟩ := generating_beginning ⟨d :: rest, hdeeds.symm⟩ hscript
    rw [deeds_eq hrun', List.append_assoc] at hdeeds
    have hsources := sources_of_fails htools hp habs hrun' (List.append_cancel_left hdeeds) hfails
      h.directory
    obtain ⟨p₂, hdone, hd⟩ := hfails
    obtain ⟨p₁, hgenerating, hmore⟩ := hdone.split
    obtain ⟨xs, hdid, -⟩ := hmore.advances.host
    obtain ⟨ys, hlast⟩ := exists_events_of_error hd
    have hlater : p'.host.journal = p₁.host.journal ++ (xs ++ ys) := by
      rw [hlast, hdid.journal, List.append_assoc]
    obtain ⟨v, before, after, hjournal, htree, hsetup⟩ :=
      exists_setup hp hgenerating hlater h.directory
    rw [hsetup] at hsources
    exact ⟨v, before, after, hjournal, htree, hsources⟩

end

end Build

end FpgaFlow
