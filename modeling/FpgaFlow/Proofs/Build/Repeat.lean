import FpgaFlow.Proofs.Build.Trace
import FpgaFlow.Proofs.Build.Written
import FpgaFlow.Proofs.Tree.Overwriting

/-!
# Building again

A deed is settled where nothing is left to do for it: what it waits for is there,
and its file holds its text already (`Deed.Settled`).  A build whose deeds are
settled comes to its end and leaves the tree as it is (`run_of_settled`).

**Main statement** `run_again`: a build that only generates, for `xst` or from a
finished netlist, leaves its deeds settled, as long as its design answers as before.
-/

namespace FpgaFlow

namespace Build

/-! ### Settled deeds -/

/-- Nothing is left to do for a deed. -/
def Deed.Settled (directory : Path) (v : View) : Deed → Prop
  | await answer => answer = .ok ()
  | write file text => ∃ t, text = .ok t ∧ v.Holds (directory.child file) t
  | call _ => False
  | _ => True

section

variable {directory : Path} {tools : Tools} {p p' : Progress} {ds : List Deed}

theorem Deed.run_of_settled (tools : Tools) (habs : directory.isAbsolute = true) {d : Deed}
    (hd : d.Settled directory p.host.toView) :
    ∃ p', ExceptT.run (d.perform directory tools) p = (.ok (), p') ∧
      p'.host.toView = p.host.toView := by
  cases d with
  | enter s => exact ⟨_, rfl, rfl⟩
  | ask q => exact ⟨_, rfl, rfl⟩
  | note files => exact ⟨_, rfl, rfl⟩
  | await answer =>
    obtain rfl : answer = .ok () := hd
    exact ⟨_, rfl, rfl⟩
  | write file text =>
    obtain ⟨t, rfl, hholds⟩ := hd
    obtain ⟨l, x, hl, -⟩ := id hholds
    refine ⟨{ p with host := p.host.writeFileAt l t }, ?_, ?_⟩
    · rw [perform, run_act,
        Action.run_writeText_of_fileTarget (Path.isAbsolute_child habs file) hl t]
    · exact congrArg (View.mk · p.host.directory) (Host.tree_writeFileAt_of_holds hholds hl)
  | call c => exact hd.elim

/-- Settled deeds succeed and leave the tree as it is. -/
theorem performs_of_settled (tools : Tools) (habs : directory.isAbsolute = true)
    (hds : ∀ d ∈ ds, d.Settled directory p.host.toView) :
    ∃ p', Performs directory tools p ds p' ∧ p'.host.toView = p.host.toView := by
  induction ds generalizing p with
  | nil => exact ⟨p, .nil p, rfl⟩
  | cons d ds ih =>
    obtain ⟨p₁, hrun, hview⟩ := Deed.run_of_settled tools habs (hds d List.mem_cons_self)
    obtain ⟨p', hrest, hview'⟩ := ih (p := p₁) fun d' hd' => by
      rw [hview]
      exact hds d' (List.mem_cons_of_mem d hd')
    exact ⟨p', .cons hrun hrest, hview'.trans hview⟩

theorem Performs.unique {p₁ p₂ : Progress} (h₁ : Performs directory tools p ds p₁)
    (h₂ : Performs directory tools p ds p₂) : p₁ = p₂ :=
  (Prod.mk.inj (h₁.run.symm.trans h₂.run)).2

theorem Performs.toView_of_settled (habs : directory.isAbsolute = true)
    (h : Performs directory tools p ds p') (hds : ∀ d ∈ ds, d.Settled directory p.host.toView) :
    p'.host.toView = p.host.toView := by
  obtain ⟨p₁, h₁, hview⟩ := performs_of_settled tools habs hds
  rw [h.unique h₁]
  exact hview

/-- Deeds without calls do the same with any tools. -/
theorem Performs.of_no_calls (h : Performs directory tools p ds p')
    (hcalls : ds.filterMap Deed.call? = []) (tools' : Tools) :
    Performs directory tools' p ds p' := by
  induction h with
  | nil p => exact .nil p
  | @cons p p₁ p' d ds hd _ ih =>
    cases d with
    | call c => cases hcalls
    | enter s => exact .cons hd (ih hcalls)
    | ask q => exact .cons hd (ih hcalls)
    | note files => exact .cons hd (ih hcalls)
    | await answer => exact .cons hd (ih hcalls)
    | write file text =>
      cases text with
      | ok t => exact .cons hd (ih hcalls)
      | error f => exact .cons hd (ih hcalls)

end

/-! ### Builds whose deeds are settled -/

/-- The report of every build with some options that comes to its end. -/
def fullReport (o : Options) : Report where
  mode := o.mode
  netlist := o.mode.netlist
  directory := o.directory
  files := fileNames o.mode o.name o.run
  ranTools := o.run
  bitstream := bitstreamPath o
  states := path o.mode o.run ++ [.done]

section

variable {g : Generator} {options o : Options} {e : Equipment} {h : Host} {p p' : Progress}

theorem files_of_performs (hp : Entered o h p)
    (hall : Performs o.directory e.tools p (deeds g o e p) p') :
    p'.files = fileNames o.mode o.name o.run := by
  rw [hall.advances.files, hp.files, flatMap_noted_deeds, map_fst_artifacts]
  rfl

theorem report_of_performs (hp : Entered o h p)
    (hall : Performs o.directory e.tools p (deeds g o e p) p') :
    report o p' (bitstreamPath o) = fullReport o := by
  have hran : (bitstreamPath o).isSome = o.run := by
    rw [bitstreamPath]
    cases o.run <;> rfl
  rw [report, files_of_performs hp hall, states_of_performs hp hall, hran, fullReport]

/-- **A build whose deeds are settled** comes to its end and leaves the tree as it is. -/
theorem run_of_settled (hmode : options.mode ≠ .mist)
    (hthere : h.tree.lookup h.directory = some .directory)
    (hdir : h.isDirectory (options.within h).directory = true)
    (hsettled : ∀ p, Entered (options.within h) h p →
      ∀ d ∈ deeds g (options.within h) e p,
        d.Settled (options.within h).directory p.host.toView) :
    ∃ p', run g options e h = (.ok (fullReport (options.within h)), p') ∧
      p'.host.tree = h.tree := by
  have habs := options.isAbsolute_within h
  generalize hout : run g options e h = out
  have hends : Ends g options e h out := hout ▸ run_ends g options e h
  cases hends with
  | refused hprepare =>
    rw [prepare_of_there (fun hmist => hmode hmist.1) hthere] at hprepare
    cases hprepare
  | outside _ _ _ hnot =>
    rw [hdir] at hnot
    cases hnot
  | @reached p p' hp hall =>
    refine ⟨_, Prod.ext ?_ rfl, ?_⟩
    · show Except.ok _ = Except.ok _
      rw [report_of_performs hp hall]
    · rw [tree_leave, hall.toView_of_settled habs (hsettled p hp)]
      exact hp.same hdir
  | @stopped p p' done rest d f hp hdeeds hfails =>
    obtain ⟨p₁, hdone, hd⟩ := hfails
    have hall := hsettled p hp
    rw [hdeeds] at hall
    have hview := hdone.toView_of_settled habs fun d' hd' => hall d' (List.mem_append_left _ hd')
    obtain ⟨_, hrun, -⟩ := Deed.run_of_settled (p := p₁) (d := d) e.tools habs
      (by rw [hview]; exact hall d (by simp))
    rw [hrun] at hd
    cases (Prod.mk.inj hd).1

end

/-! ### Builds that only generate -/

/-- The modes in which a build without its tools calls no program. -/
def Options.OnlyGenerates (o : Options) : Prop :=
  (o.mode = .xst ∨ o.mode = .edif) ∧ o.run = false

section

variable {g : Generator} {options o : Options} {e : Equipment} {h : Host} {p p' : Progress}

theorem Options.OnlyGenerates.ne_mist (ho : o.OnlyGenerates) : o.mode ≠ .mist := by
  rcases ho with ⟨hmode | hmode, -⟩ <;> simp [hmode]

theorem calls_eq_nil (ho : o.OnlyGenerates) (program : Path) : calls g o e program = [] := by
  obtain ⟨hmode | hmode, honly⟩ := ho <;> simp [calls, hmode, honly]

theorem design_eq (ho : o.OnlyGenerates) (p : Progress) :
    design g o e p = answer g o e p.host.toView := by
  rw [design, opening, if_neg ho.ne_mist]
  rfl

theorem eq_settled_of_await_mem (ho : o.OnlyGenerates) {a : Except Failure Unit}
    (h : .await a ∈ deeds g o e p) : a = settled (design g o e p) := by
  obtain ⟨hmode | hmode, honly⟩ := ho <;>
    simpa [deeds, generating, opening, body, projectDeeds, constraintDeeds, store, hmode, honly,
      Mode.usesVerilog] using h

/-- What is left to do is nothing where every file holds its text. -/
theorem settled_of_holds (ho : o.OnlyGenerates) {a : Generated} (hdesign : design g o e p = .ok a)
    (hholds : ∀ w ∈ artifacts g o e p, ∃ text, w.2 = .ok text ∧
      p.host.Holds (o.directory.child w.1) text) :
    ∀ d ∈ deeds g o e p, d.Settled o.directory p.host.toView := by
  intro d hd
  cases d with
  | enter s => trivial
  | ask q => trivial
  | note files => trivial
  | await answer =>
    rw [eq_settled_of_await_mem ho hd, hdesign]
    rfl
  | write file text =>
    refine hholds (file, text) ?_
    rw [← filterMap_written?_deeds]
    exact List.mem_filterMap.2 ⟨_, hd, rfl⟩
  | call c =>
    have hc : c ∈ (deeds g o e p).filterMap Deed.call? := List.mem_filterMap.2 ⟨_, hd, rfl⟩
    rw [filterMap_call?_deeds, calls_eq_nil ho] at hc
    cases hc

/-- Only the vendor's synthesizer is given the further sources. -/
theorem artifacts_congr (ho : o.OnlyGenerates) {sources : List SourceFile}
    (hsources : o.mode = .xst → sources = o.sources)
    (hdesign : design g { o with sources := sources } e p' = design g o e p) :
    artifacts g { o with sources := sources } e p' = artifacts g o e p := by
  obtain ⟨hmode, honly⟩ := ho
  have hrun : ¬ o.run = true := by simp [honly]
  rw [artifacts, designFiles, constraintFile, hdesign, if_neg hrun]
  rw [artifacts, designFiles, constraintFile, if_neg hrun]
  rcases hmode with hmode | hmode
  · obtain rfl := hsources hmode
    rfl
  · simp only [hmode]

/-- The paths of the files of a build that only generates. -/
def Options.written (o : Options) : List Path :=
  (fileNames o.mode o.name o.run).map o.directory.child

/-- What has been done when a build that only generates comes to its end. -/
structure Completes (g : Generator) (o : Options) (e : Equipment) (p p' : Progress) : Prop where
  design : ∃ a, design g o e p = .ok a
  holds : ∀ w ∈ artifacts g o e p, ∃ text, w.2 = .ok text ∧
    p'.host.Holds (o.directory.child w.1) text
  overwrites : View.Overwrites o.written p.host.toView p'.host.toView

theorem completes_of_performs (ho : o.OnlyGenerates) (habs : o.directory.isAbsolute = true)
    (hall : Performs o.directory e.tools p (deeds g o e p) p') : Completes g o e p p' := by
  have hwritten := filterMap_written?_deeds g o e p
  have hcalls : (deeds g o e p).filterMap Deed.call? = [] := by
    rw [filterMap_call?_deeds, calls_eq_nil ho]
  -- No tool is called, so that the tools may be taken to write nothing.
  have hquiet := hall.of_no_calls hcalls quiet
  have hidle : Idle quiet := fun _ _ => rfl
  have hspreads := hquiet.spreads habs hidle (List.Subset.refl _)
  have hholds := fun w => hquiet.holds (w := w) habs hidle
    (hwritten ▸ pairwise_apart_artifacts g o e p)
  rw [hwritten] at hspreads hholds
  refine ⟨?_, hholds, hspreads.grows, hspreads.changed.mono ?_ fun _ _ => trivial⟩
  · obtain ⟨text, htext, -⟩ := hholds (constraintFile g o e p) (by simp [artifacts])
    cases hdesign : design g o e p with
    | ok a => exact ⟨a, rfl⟩
    | error f =>
      rw [constraintFile, hdesign] at htext
      cases htext
  · rintro l ⟨w, hw, hl⟩
    refine ⟨o.directory.child w.1, List.mem_map_of_mem ?_, hl⟩
    rw [← map_fst_artifacts g o e p]
    exact List.mem_map_of_mem hw

/-- Both builds are in the same directory. -/
theorem directory_eq_of_entered {o' : Options} {h' : Host} {p₁ : Progress}
    (habs : o.directory.isAbsolute = true) (hp : Entered o h p) (hp₁ : Entered o' h' p₁)
    (hsame : o'.directory = o.directory) (hgrows : p.host.tree.Grows p₁.host.tree) :
    p₁.host.directory = p.host.directory := by
  have hfirst := hp.resolve
  have hsecond := hp₁.resolve
  rw [hsame] at hsecond
  have hlater := View.resolve_of_grows (v := ⟨p.host.tree, h.directory⟩)
    (w := ⟨p₁.host.tree, h'.directory⟩) hgrows
    (by rw [View.start_eq_nil habs, View.start_eq_nil habs]) hfirst
  exact Except.ok.inj (hsecond.symm.trans hlater)

theorem within_again {again : Host} (hdirectory : again.directory = h.directory)
    {sources : List SourceFile} (hsources : options.mode = .xst → sources = options.sources) :
    ∃ later, { options with sources := sources }.within again =
        { options.within h with sources := later } ∧
      (options.mode = .xst → later = (options.within h).sources) := by
  have hworking : again.workingDirectory = h.workingDirectory :=
    congrArg Path.ofLocation hdirectory
  refine ⟨sources.map (SourceFile.absolutize h.workingDirectory), ?_, fun hmode => ?_⟩
  · rw [Options.within, hworking]
    rfl
  · rw [hsources hmode]
    rfl

/-- Where a build left off, the deeds of the same build are settled. -/
theorem settled_again {p₁ p₂ : Progress} (ho : o.OnlyGenerates)
    (habs : o.directory.isAbsolute = true) (hdone : Completes g o e p p₁)
    (htree : p₂.host.tree = p₁.host.tree) {sources : List SourceFile}
    (hsources : o.mode = .xst → sources = o.sources)
    (hanswer : ∀ a, answer g o e p.host.toView = .ok a → answer g o e p₂.host.toView = .ok a) :
    ∀ d ∈ deeds g { o with sources := sources } e p₂, d.Settled o.directory p₂.host.toView := by
  obtain ⟨⟨a, ha⟩, hholds, -⟩ := hdone
  have hfirst : answer g o e p.host.toView = .ok a := (design_eq ho p).symm.trans ha
  have hsecond : design g { o with sources := sources } e p₂ = .ok a :=
    (design_eq (o := { o with sources := sources }) ho p₂).trans (hanswer a hfirst)
  have hsame := artifacts_congr ho hsources (hsecond.trans ha.symm)
  refine settled_of_holds (o := { o with sources := sources }) ho hsecond ?_
  rw [hsame]
  intro w hw
  obtain ⟨text, htext, hheld⟩ := hholds w hw
  refine ⟨text, htext, hheld.of_grows ?_ (start_child habs w.1 _ _) fun l _ => ?_⟩
  · rw [htree]
    exact FileTree.Grows.refl _
  · rw [htree]

/-- What a build did that came to its end. -/
theorem reached_of_run {r : Report} (hrun : run g options e h = (.ok r, p')) :
    ∃ p p₁, Entered (options.within h) h p ∧
      Performs (options.within h).directory e.tools p (deeds g (options.within h) e p) p₁ ∧
      r = fullReport (options.within h) ∧ p' = p₁.leave h.directory := by
  have hends : Ends g options e h (.ok r, p') := hrun ▸ run_ends g options e h
  cases hends with
  | @reached p p₁ hp hall => exact ⟨p, p₁, hp, hall, report_of_performs hp hall, rfl⟩

theorem isAbsolute_of_mem_written (habs : o.directory.isAbsolute = true) :
    ∀ f ∈ o.written, f.isAbsolute = true := by
  intro f hf
  obtain ⟨file, -, rfl⟩ := List.mem_map.1 hf
  exact Path.isAbsolute_child habs file

/-- Whatever the design is, a file of a build has the extension of a file of a build. -/
theorem ending_of_mem_written (g : Generator) (e : Equipment) (p : Progress) {f : Path}
    (hf : f ∈ o.written) {v : View} {l : Location} (hl : v.resolve f = .ok l) :
    ∃ ext ∈ endings o.mode o.run, View.endingAt l = some ext.toList := by
  obtain ⟨file, hfile, rfl⟩ := List.mem_map.1 hf
  rw [← map_fst_artifacts g o e p] at hfile
  obtain ⟨w, hw, rfl⟩ := List.mem_map.1 hfile
  obtain ⟨ext, hext, hextended⟩ := mem_right_of_forall₂ (extended_artifacts g o e p) hw
  exact ⟨ext, hext, View.ending_of_resolve hextended (ne_empty_of_mem_endings hext) hl⟩

theorem overwrites_of_run {r : Report} (hrun : run g options e h = (.ok r, p'))
    (ho : options.OnlyGenerates) :
    View.Overwrites (options.within h).written h.toView p'.host.toView := by
  have habs := options.isAbsolute_within h
  have hfiles := isAbsolute_of_mem_written habs
  obtain ⟨p, p₁, hp, hall, -, rfl⟩ := reached_of_run hrun
  have hfirst : View.Overwrites (options.within h).written h.toView p.host.toView :=
    ⟨hp.makes.grows, (changed_of_entered habs hp _).mono (fun _ => id) fun _ _ => trivial⟩
  have hrest := (completes_of_performs (o := options.within h) ho habs hall).overwrites
  exact (hfirst.trans hfiles hrest).congr hfiles rfl (tree_leave p₁ h.directory)

/-- A build that came to its end is where it was before, in the same environment. -/
theorem directory_of_run {r : Report} (hrun : run g options e h = (.ok r, p'))
    (ho : options.OnlyGenerates) : p'.host.directory = h.directory := by
  have hgrows := (overwrites_of_run hrun ho).grows
  have hthere := there_of_run hrun
  obtain ⟨p, p₁, -, -, -, rfl⟩ := reached_of_run hrun
  exact directory_leave (hgrows.directory hthere)

theorem environment_of_run {r : Report} (hrun : run g options e h = (.ok r, p')) :
    p'.host.environment = h.environment := by
  obtain ⟨p, p₁, hp, hall, -, rfl⟩ := reached_of_run hrun
  obtain ⟨_, hmade⟩ := hp.makes.did e.tools
  obtain ⟨_, hdid, -⟩ := hall.advances.host
  have hleave : (p₁.leave h.directory).host.environment = p₁.host.environment := by
    rw [Progress.leave, Host.returnTo]
    split <;> rfl
  exact hleave.trans (hdid.environment.trans hmade.environment)

/-- **A build that only generates can be repeated** where it left off, with the same report and
without a change to the tree, as long as its design answers as before. Further sources may be other
ones if there is no synthesizer to read them. -/
theorem run_again {r : Report} (hrun : run g options e h = (.ok r, p'))
    (ho : options.OnlyGenerates) {again : Host} (htree : again.tree = p'.host.tree)
    (hdirectory : again.directory = h.directory) {sources : List SourceFile}
    (hsources : options.mode = .xst → sources = options.sources)
    (hanswer : ∀ v w : View, w.directory = v.directory → w.tree = p'.host.tree →
      View.Overwrites (options.within h).written v w → ∀ a,
        answer g (options.within h) e v = .ok a → answer g (options.within h) e w = .ok a) :
    ∃ p'', run g { options with sources := sources } e again = (.ok r, p'') ∧
      p''.host.tree = p'.host.tree := by
  have habs := options.isAbsolute_within h
  have how : (options.within h).OnlyGenerates := ho
  obtain ⟨later, hwithin, hlater⟩ := within_again hdirectory hsources
  have hthere : again.tree.lookup again.directory = some .directory := by
    rw [htree, hdirectory]
    exact (overwrites_of_run hrun ho).grows.directory (there_of_run hrun)
  obtain ⟨p, p₁, hp, hall, rfl, rfl⟩ := reached_of_run hrun
  have hdone := completes_of_performs how habs hall
  rw [tree_leave] at htree hanswer ⊢
  have hdir : again.isDirectory (options.within h).directory = true := by
    have hthere := View.isDirectory_iff.2 ⟨_, hp.resolve, hp.target⟩
    refine View.isDirectory_of_grows ?_ ?_ hthere
    · rw [htree]
      exact hdone.overwrites.grows
    · rw [View.start_eq_nil habs, View.start_eq_nil habs]
  have hmist : { options with sources := sources }.mode ≠ .mist := how.ne_mist
  obtain ⟨p'', hrun', htree'⟩ := run_of_settled (g := g) (e := e) hmist hthere
    (by rw [hwithin]; exact hdir) fun p₂ hp₂ => by
      rw [hwithin] at hp₂ ⊢
      have htree₂ : p₂.host.tree = p₁.host.tree := (hp₂.same hdir).trans htree
      have hgrows : p.host.tree.Grows p₂.host.tree := by
        rw [htree₂]
        exact hdone.overwrites.grows
      have hdirectory₂ := directory_eq_of_entered habs hp hp₂ rfl hgrows
      have hview : p₂.host.toView = p₁.host.toView :=
        congrArg₂ View.mk htree₂ (hdirectory₂.trans hall.advances.directory_eq.symm)
      have hoverwrites : View.Overwrites (options.within h).written p.host.toView
          p₂.host.toView := by
        rw [hview]
        exact hdone.overwrites
      exact settled_again how habs hdone htree₂ hlater
        (hanswer _ _ hdirectory₂ htree₂ hoverwrites)
  refine ⟨p'', ?_, htree'.trans htree⟩
  rw [hrun', hwithin]
  rfl

end

end Build

end FpgaFlow
