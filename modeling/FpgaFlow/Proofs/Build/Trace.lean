import FpgaFlow.Proofs.Build.Contents
import Mathlib.Data.List.Infix

/-!
# The states of a build

A mode has a path of states (`path`).  A build that succeeds has gone through the
whole path, and one that fails through a beginning of it.

**Main statement** `run_follows_path`: the states of a build follow the path of its
mode, and the constraints and the control script are written in the states that
are named after them.
-/

namespace FpgaFlow

namespace Build

/-- The states that a build goes through before it is done. -/
def path (mode : Mode) (run : Bool) : List BuildState :=
  [.changeDirectory, .selectMode, .generateDesign] ++
    ((if mode = .xst ∨ mode = .yosys then [.generateProject] else []) ++
      .writeConstraints :: if run then [.runScript] else [])

/-- The states in the report of a build, or in its failure. -/
def trace : Except Failure Report → List BuildState
  | .ok report => report.states
  | .error f => match f.building? with
    | some (_, states) => states
    | none => []

/-- What a build says about its states when it works with the options `o`. -/
def Follows (o : Options) : Except Failure Report → Prop
  | .ok report => report.states = path o.mode o.run ++ [.done] ∧ report.ranTools = o.run ∧
      report.bitstream = if o.run then some (o.directory.child (o.name ++ ".bit")) else none
  | .error f => ∀ failedIn states, f.building? = some (failedIn, states) →
      ∃ before, before <+: path o.mode o.run ∧ before.getLast? = some failedIn ∧
        states = before ++ [.failed] ∧
        (failedIn = .generateDesign ∨
          failedIn = .generateProject ∧ (o.mode = .xst ∨ o.mode = .yosys) ∨
          failedIn = .writeConstraints ∨ failedIn = .runScript)

/-- Since `h` the file was written that a path leads to in some state of the tree. -/
def Wrote (h : Host) (p : Progress) (file : Path) : Prop :=
  ∃ events l text, p.host.journal = h.journal ++ events ∧ .wroteFile l text ∈ events ∧
    ∃ v : View, v.fileTarget file = .ok l

/-! ### The path -/

theorem usesVerilog_iff (mode : Mode) :
    mode.usesVerilog = true ↔ mode = .xst ∨ mode = .yosys := by
  cases mode <;> simp [Mode.usesVerilog]

theorem path_eq (g : Generator) (o : Options) (e : Equipment) (p : Progress) :
    path o.mode o.run = .changeDirectory :: (deeds g o e p).filterMap Deed.state? := by
  rw [filterMap_state?_deeds, path]
  simp only [usesVerilog_iff]
  rfl

/-- Where a build can stop that has asked its design. -/
theorem getLast?_of_mem_inits (mode : Mode) (run : Bool) :
    ∀ before ∈ (path mode run).inits, 3 ≤ before.length →
      before.getLast? = some .generateDesign ∨
      before.getLast? = some .generateProject ∧ (mode = .xst ∨ mode = .yosys) ∨
      before.getLast? = some .writeConstraints ∨ before.getLast? = some .runScript := by
  cases mode <;> cases run <;> decide

/-- The first two deeds of a build do not fail. -/
theorem length_of_fails {g : Generator} {o : Options} {e : Equipment} {p p' : Progress}
    {done rest : List Deed} {d : Deed} {f : Failure} (hdeeds : deeds g o e p = done ++ d :: rest)
    (hfails : Fails o.directory e.tools p done d f p') :
    2 ≤ (done.filterMap Deed.state?).length := by
  obtain ⟨others, hothers⟩ : ∃ others, deeds g o e p =
      .enter .selectMode :: .enter .generateDesign :: others := ⟨_, rfl⟩
  have hd : d.state? = none := by
    obtain ⟨_, -, hd⟩ := hfails
    exact (Deed.advances_of_error hd).1
  rw [hothers] at hdeeds
  cases done with
  | nil =>
    obtain ⟨rfl, -⟩ := List.cons.inj hdeeds
    cases hd
  | cons a done =>
    obtain ⟨rfl, hrest⟩ := List.cons.inj hdeeds
    cases done with
    | nil =>
      obtain ⟨rfl, -⟩ := List.cons.inj hrest
      cases hd
    | cons b done =>
      obtain ⟨rfl, -⟩ := List.cons.inj hrest
      simp [Deed.state?]

/-! ### Files and states -/

theorem concat_or_beginning {α : Type} {done A B : List α} {x : α} (h : done <+: A ++ x :: B) :
    A ++ [x] <+: done ∨ done <+: A := by
  have hx : A ++ [x] <+: A ++ x :: B := ⟨B, by simp⟩
  rcases List.prefix_or_prefix_of_prefix h hx with hle | hge
  · rcases List.prefix_concat_iff.1 hle with rfl | hA
    · exact .inl List.prefix_rfl
    · exact .inr hA
  · exact .inl hge

theorem mem_or_beginning {α : Type} {done A B : List α} {x : α} (h : done <+: A ++ x :: B) :
    x ∈ done ∨ done <+: A :=
  (concat_or_beginning h).imp_left fun hx => hx.subset (by simp)

section

variable {g : Generator} {o : Options} {e : Equipment} {p p' : Progress} {h : Host}

/-- What was written was written by a deed. -/
theorem written_of_wrote {states : List BuildState} {files : List String}
    {writes : List (String × Except Failure String)} {calls : List (Invocation × Outcome)}
    (hp : Entered o h p) (hadv : Advances o.directory e.tools p states files writes calls p')
    {previous : Location} {file : String}
    (hw : Wrote h (p'.leave previous) (o.directory.child file)) :
    ∃ w ∈ writes, ∃ v u : View, ∃ l, v.fileTarget (o.directory.child w.1) = .ok l ∧
      u.fileTarget (o.directory.child file) = .ok l := by
  obtain ⟨events, l, text, hjournal, hmem, u, hl⟩ := hw
  obtain ⟨events', hjournal', -, hleads, -⟩ := hp.events hadv
  rw [journal_leave, hjournal'] at hjournal
  rw [List.append_cancel_left hjournal] at hleads
  have hevent : (l, text) ∈ events.filterMap Event.written? :=
    List.mem_filterMap.2 ⟨_, hmem, rfl⟩
  obtain ⟨w, hw, -, v, hv⟩ := mem_right_of_forall₂ hleads.flip hevent
  exact ⟨w, hw, v, u, l, hv, hl⟩

/-- Constraints are written after the state that is named after them. -/
theorem mem_states_of_constraints {done : List Deed} (hdone : done <+: deeds g o e p)
    {w : String × Except Failure String} (hw : w ∈ done.filterMap Deed.written?) {v u : View}
    {l : Location} (hv : v.fileTarget (o.directory.child w.1) = .ok l)
    (hu : u.fileTarget (o.directory.child (o.name ++ ".ucf")) = .ok l) :
    .writeConstraints ∈ done.filterMap Deed.state? := by
  have hsplit : deeds g o e p =
      (opening g o e ++ body o (Action.yosysProgram p.host) (design g o e p)) ++
        .enter .writeConstraints :: (store (o.name ++ ".ucf")
          ((design g o e p).map constraintText) ++
            if o.run then toolDeeds o (setup g o e p) else []) := by
    simp [deeds, generating, constraintDeeds]
  rw [hsplit] at hdone
  rcases mem_or_beginning hdone with henter | hbefore
  · exact List.mem_filterMap.2 ⟨_, henter, rfl⟩
  · have hfile := (hbefore.filterMap Deed.written?).subset hw
    rw [List.filterMap_append, filterMap_written?_opening, filterMap_written?_body,
      List.nil_append] at hfile
    obtain ⟨ext, hext, hextended⟩ := mem_right_of_forall₂ (extended_designFiles g o e p) hfile
    have hnot : "ucf" ∉ designEndings o.mode := by cases o.mode <;> decide
    rw [ne_of_extended hextended (extended_ucf o) hv hu] at hext
    exact absurd hext hnot

/-- A file that comes before the control script has another extension. -/
theorem exists_ending_of_mem {w : String × Except Failure String}
    (hw : w ∈ designFiles g o e p ++ [constraintFile g o e p]) :
    ∃ ext, ext ≠ "sh" ∧ View.Extended w.1 ext := by
  have hall : List.Forall₂ (fun w ext => View.Extended w.1 ext)
      (designFiles g o e p ++ [constraintFile g o e p]) (designEndings o.mode ++ ["ucf"]) :=
    List.rel_append (extended_designFiles g o e p) (.cons (extended_ucf o) .nil)
  obtain ⟨ext, hext, hextended⟩ := mem_right_of_forall₂ hall hw
  have hnot : "sh" ∉ designEndings o.mode ++ ["ucf"] := by cases o.mode <;> decide
  exact ⟨ext, ne_of_mem_of_not_mem hext hnot, hextended⟩

/-- No file that comes before the control script is in its place. -/
theorem not_script_of_mem {w : String × Except Failure String}
    (hw : w ∈ designFiles g o e p ++ [constraintFile g o e p]) {v u : View} {l : Location}
    (hv : v.fileTarget (o.directory.child w.1) = .ok l) :
    u.fileTarget (o.directory.child (ControlScript.fileName o.name)) ≠ .ok l := by
  intro hu
  obtain ⟨ext, hne, hextended⟩ := exists_ending_of_mem hw
  exact hne (ne_of_extended hextended (extended_script o) hv hu)

/-- The control script is written after the state that is named after it. -/
theorem mem_states_of_script {done : List Deed} (hdone : done <+: deeds g o e p)
    {w : String × Except Failure String} (hw : w ∈ done.filterMap Deed.written?) {v u : View}
    {l : Location} (hv : v.fileTarget (o.directory.child w.1) = .ok l)
    (hu : u.fileTarget (o.directory.child (ControlScript.fileName o.name)) = .ok l) :
    .runScript ∈ done.filterMap Deed.state? := by
  have hnot : ¬ done <+: generating g o e p := by
    intro hbefore
    have hfile := (hbefore.filterMap Deed.written?).subset hw
    rw [filterMap_written?_generating] at hfile
    exact not_script_of_mem hfile hv hu
  rw [deeds] at hdone
  split at hdone
  next =>
    rcases mem_or_beginning hdone with henter | hbefore
    · exact List.mem_filterMap.2 ⟨_, henter, rfl⟩
    · exact absurd hbefore hnot
  next =>
    rw [List.append_nil] at hdone
    exact absurd hdone hnot

/-- What the deeds of a beginning wrote they wrote in the right states. -/
theorem mem_states_of_wrote {done : List Deed} (hdone : done <+: deeds g o e p)
    {files : List String} {calls : List (Invocation × Outcome)} (hp : Entered o h p)
    (hadv : Advances o.directory e.tools p (done.filterMap Deed.state?) files
      (done.filterMap Deed.written?) calls p') (previous : Location) :
    (Wrote h (p'.leave previous) (o.directory.child (o.name ++ ".ucf")) →
      .writeConstraints ∈ p'.states) ∧
    (Wrote h (p'.leave previous) (o.directory.child (ControlScript.fileName o.name)) →
      .runScript ∈ p'.states) := by
  have hstates : p'.states = p.states ++ done.filterMap Deed.state? := hadv.states
  refine ⟨fun hw => ?_, fun hw => ?_⟩
  · obtain ⟨w, hmem, v, u, l, hv, hu⟩ := written_of_wrote hp hadv hw
    rw [hstates]
    exact List.mem_append_right _ (mem_states_of_constraints hdone hmem hv hu)
  · obtain ⟨w, hmem, v, u, l, hv, hu⟩ := written_of_wrote hp hadv hw
    rw [hstates]
    exact List.mem_append_right _ (mem_states_of_script hdone hmem hv hu)

/-- Everything up to the constraints is done before the tools. -/
theorem generating_beginning {done : List Deed} (hdone : done <+: deeds g o e p)
    (hscript : .runScript ∈ done.filterMap Deed.state?) : generating g o e p <+: done := by
  rw [deeds] at hdone
  rcases List.prefix_or_prefix_of_prefix hdone (List.prefix_append _ _) with hle | hge
  · have hstates := (hle.filterMap Deed.state?).subset hscript
    rw [generating] at hstates
    simp only [List.filterMap_append, filterMap_state?_opening, filterMap_state?_body] at hstates
    cases hmode : o.mode.usesVerilog <;>
      simp [hmode, constraintDeeds, store, Deed.state?] at hstates
  · exact hge

theorem states_of_performs (hp : Entered o h p)
    (hall : Performs o.directory e.tools p (deeds g o e p) p') :
    p'.states = path o.mode o.run := by
  rw [hall.advances.states, hp.states, path_eq g o e p]
  rfl

theorem follows_of_performs (hp : Entered o h p)
    (hall : Performs o.directory e.tools p (deeds g o e p) p') :
    Follows o (.ok (report o p' (bitstreamPath o))) := by
  refine ⟨?_, ?_, ?_⟩
  · rw [report, states_of_performs hp hall]
  · rw [report, bitstreamPath]
    cases o.run <;> rfl
  · rw [report, bitstreamPath]
    rfl

theorem building?_failure (p : Progress) (f : Failure) : (failure p f).building? =
    some (p.states.getLast?.getD .changeDirectory, p.states ++ [.failed]) := rfl

theorem trace_eq_nil {f : Failure} (hf : f.building? = none) : trace (.error f) = [] := by
  rw [trace, hf]

theorem trace_of_fails {done : List Deed} {d : Deed} {f : Failure} (hp : Entered o h p)
    (hfails : Fails o.directory e.tools p done d f p') :
    trace (.error (failure p' f)) =
      .changeDirectory :: done.filterMap Deed.state? ++ [.failed] := by
  obtain ⟨_, hadv⟩ := hfails.advances
  rw [trace, building?_failure]
  show p'.states ++ [.failed] = _
  rw [hadv.states, hp.states]
  rfl

/-- No deed enters the state that a build has at its end. -/
theorem done_notMem_states : .done ∉ (deeds g o e p).filterMap Deed.state? := by
  rw [filterMap_state?_deeds]
  cases o.mode.usesVerilog <;> cases o.run <;> simp

theorem follows_of_fails (hp : Entered o h p) {done rest : List Deed} {d : Deed} {f : Failure}
    (hdeeds : deeds g o e p = done ++ d :: rest)
    (hfails : Fails o.directory e.tools p done d f p') : Follows o (.error (failure p' f)) := by
  obtain ⟨_, hadv⟩ := hfails.advances
  have hstates : p'.states = .changeDirectory :: done.filterMap Deed.state? := by
    rw [hadv.states, hp.states]
    rfl
  have hdone : done <+: deeds g o e p := ⟨d :: rest, hdeeds.symm⟩
  have hbefore : p'.states <+: path o.mode o.run := by
    rw [hstates, path_eq g o e p]
    exact (List.prefix_cons_inj _).2 (hdone.filterMap Deed.state?)
  have hlength : 3 ≤ p'.states.length := by
    have hle := length_of_fails hdeeds hfails
    rw [hstates, List.length_cons]
    omega
  intro failedIn states hbuilding
  rw [building?_failure, Option.some.injEq, Prod.mk.injEq] at hbuilding
  obtain ⟨rfl, rfl⟩ := hbuilding
  have hlast := getLast?_of_mem_inits o.mode o.run p'.states ((List.mem_inits _ _).2 hbefore)
    hlength
  refine ⟨p'.states, hbefore, ?_, rfl, ?_⟩
  · rcases hlast with h | ⟨h, -⟩ | h | h <;> rw [h] <;> rfl
  · rcases hlast with h | ⟨h, hmode⟩ | h | h
    · rw [h]
      exact .inl rfl
    · rw [h]
      exact .inr (.inl ⟨rfl, hmode⟩)
    · rw [h]
      exact .inr (.inr (.inl rfl))
    · rw [h]
      exact .inr (.inr (.inr rfl))

end

theorem not_wrote_of_makes {h : Host} {ps : List Path} {p : Progress} {file : Path}
    (hm : h.Makes ps p.host) : ¬ Wrote h p file := by
  rintro ⟨events, l, text, hjournal, hmem, -⟩
  obtain ⟨ls, hdid⟩ := hm.did fun _ t => (t, .ok none)
  rw [hdid.journal] at hjournal
  rw [← List.append_cancel_left hjournal] at hmem
  obtain ⟨_, -, heq⟩ := List.mem_map.1 hmem
  cases heq

/-- **The states of a build follow the path of its mode.** The constraints are written only in a
build that came to their state, and so is the control script. -/
theorem run_follows_path (g : Generator) (options : Options) (e : Equipment) (h : Host) :
    Follows (options.within h) (run g options e h).1 ∧
    (Wrote h (run g options e h).2 ((options.within h).directory.child (options.name ++ ".ucf")) →
      .writeConstraints ∈ trace (run g options e h).1) ∧
    (Wrote h (run g options e h).2
        ((options.within h).directory.child ("build_" ++ options.name ++ ".sh")) →
      .runScript ∈ trace (run g options e h).1) := by
  generalize hout : run g options e h = out
  have hends : Ends g options e h out := hout ▸ run_ends g options e h
  cases hends with
  | refused hprepare =>
    have hm : h.Makes [] (Progress.start h).host := .refl h
    refine ⟨fun _ _ hb => ?_, fun hw => absurd hw (not_wrote_of_makes hm),
      fun hw => absurd hw (not_wrote_of_makes hm)⟩
    rw [(untraced_of_prepare hprepare).1] at hb
    cases hb
  | outside hbuilding _ hm _ =>
    refine ⟨fun _ _ hb => ?_, fun hw => absurd hw (not_wrote_of_makes hm),
      fun hw => absurd hw (not_wrote_of_makes hm)⟩
    rw [hbuilding] at hb
    cases hb
  | @reached p p' hp hall =>
    obtain ⟨hconstraints, hscript⟩ :=
      mem_states_of_wrote List.prefix_rfl hp hall.advances h.directory
    refine ⟨follows_of_performs hp hall, fun hw => ?_, fun hw => ?_⟩
    · exact List.mem_append_left _ (hconstraints hw)
    · exact List.mem_append_left _ (hscript hw)
  | @stopped p p' done rest d f hp hdeeds hfails =>
    obtain ⟨_, hadv⟩ := hfails.advances
    obtain ⟨hconstraints, hscript⟩ :=
      mem_states_of_wrote ⟨d :: rest, hdeeds.symm⟩ hp hadv h.directory
    refine ⟨follows_of_fails hp hdeeds hfails, fun hw => ?_, fun hw => ?_⟩
    · exact List.mem_append_left _ (hconstraints hw)
    · exact List.mem_append_left _ (hscript hw)

end Build

end FpgaFlow
