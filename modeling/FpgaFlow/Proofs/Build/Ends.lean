import FpgaFlow.Proofs.Build.Stages

/-!
# How a build ends

A build without the synthesizer that it needs, or without a working directory, does
nothing.  Else it goes into its directory, which fails without a trace of states, or it
performs its deeds there, all of them or up to the first that fails.  Then it goes back.

**Main statement** `run_ends`: these are the ways in which a build ends.
-/

namespace FpgaFlow

namespace Build

/-- The options that a build works with: every path is absolute. -/
def Options.within (h : Host) (options : Options) : Options :=
  options.absolutize h.workingDirectory

theorem Options.isAbsolute_within (h : Host) (options : Options) :
    (options.within h).directory.isAbsolute = true :=
  Path.isAbsolute_absolutize (Path.isAbsolute_ofLocation h.directory) options.directory

/-! ### Builds that are refused -/

section

variable {g : Generator} {options : Options} {e : Equipment} {h : Host} {f : Failure}

/-- A build that is not refused has what its mode needs and begins in a directory. -/
theorem prepare_eq_ok_iff {wd : Path} :
    prepare options e h = .ok wd ↔ ¬ (options.mode = .mist ∧ e.synthesizer.isNone) ∧
      h.tree.lookup h.directory = some .directory ∧ wd = h.workingDirectory := by
  rw [prepare]
  split
  next hnone => exact iff_of_false nofun fun hok => hok.1 hnone
  next hsome =>
    rw [Action.inContext_eq_ok_iff, Host.currentDirectory_eq_ok_iff, and_iff_right hsome]

/-- Why a build is refused. -/
theorem prepare_eq_error_iff : prepare options e h = .error f ↔
    (options.mode = .mist ∧ e.synthesizer.isNone) ∧ f = Failure.of .noSynthesizer ∨
      ¬ (options.mode = .mist ∧ e.synthesizer.isNone) ∧
        h.tree.lookup h.directory ≠ some .directory ∧ f = ⟨[.locating], .io .notFound⟩ := by
  rw [prepare]
  split
  next hnone =>
    rw [Except.error.injEq, eq_comm, and_iff_right hnone, or_iff_left fun hf => hf.1 hnone]
  next hsome =>
    rw [or_iff_right fun hf => hsome hf.1, and_iff_right hsome, Host.currentDirectory]
    split
    next hthere =>
      refine iff_of_false (fun hf => ?_) fun hf => hf.1 hthere
      cases hf
    next hgone =>
      rw [and_iff_right hgone, Action.inContext, Except.mapError, Except.error.injEq, eq_comm]

/-- A build that is refused has no states, and no tool failed in it. -/
theorem untraced_of_prepare (hrefused : prepare options e h = .error f) :
    f.building? = none ∧ f.fault? = none := by
  rcases prepare_eq_error_iff.1 hrefused with ⟨-, rfl⟩ | ⟨-, -, rfl⟩
  · exact ⟨rfl, rfl⟩
  · exact ⟨rfl, rfl⟩

/-- What has what its mode needs and begins in a directory is not refused. -/
theorem prepare_of_there (hmode : ¬ (options.mode = .mist ∧ e.synthesizer.isNone))
    (hthere : h.tree.lookup h.directory = some .directory) :
    prepare options e h = .ok h.workingDirectory :=
  prepare_eq_ok_iff.2 ⟨hmode, hthere, rfl⟩

/-- Whether a build is refused depends on its mode only, of all its options. -/
theorem prepare_congr {o' : Options} (hmode : o'.mode = options.mode) (e : Equipment)
    (h : Host) : prepare o' e h = prepare options e h := by
  rw [prepare, prepare, hmode]

/-- A build that is refused does nothing. -/
theorem run_of_refused (hrefused : prepare options e h = .error f) :
    run g options e h = (.error f, Progress.start h) := by
  rw [run, hrefused]

/-- A build that comes to its end began in a directory. -/
theorem there_of_run {r : Report} {p : Progress} (hrun : run g options e h = (.ok r, p)) :
    h.tree.lookup h.directory = some .directory := by
  cases hprepare : prepare options e h with
  | error f =>
    rw [run_of_refused hprepare] at hrun
    cases congrArg Prod.fst hrun
  | ok wd => exact (prepare_eq_ok_iff.1 hprepare).2.1

end

/-! ### Builds that begin -/

/-- A build has gone into its directory. -/
structure Entered (o : Options) (h : Host) (p : Progress) : Prop where
  states : p.states = [.changeDirectory]
  files : p.files = []
  makes : h.Makes o.directory.ancestors { p.host with directory := h.directory }
  target : p.host.tree.lookup p.host.directory = some .directory
  resolve : View.resolve ⟨p.host.tree, h.directory⟩ o.directory = .ok p.host.directory
  same : h.isDirectory o.directory = true → p.host.tree = h.tree

/-- The ways in which a build ends. -/
inductive Ends (g : Generator) (options : Options) (e : Equipment) (h : Host) :
    Except Failure Report × Progress → Prop
  | refused {f : Failure} : prepare options e h = .error f →
      Ends g options e h (.error f, Progress.start h)
  | outside {f : Failure} {p : Progress} : f.building? = none → f.fault? = none →
      h.Makes (options.within h).directory.ancestors p.host →
      h.isDirectory (options.within h).directory = false →
      Ends g options e h (.error f, p)
  | reached {p p' : Progress} : Entered (options.within h) h p →
      Performs (options.within h).directory e.tools p (deeds g (options.within h) e p) p' →
      Ends g options e h (.ok (report (options.within h) p' (bitstreamPath (options.within h))),
        p'.leave h.directory)
  | stopped {p p' : Progress} {done rest : List Deed} {d : Deed} {f : Failure} :
      Entered (options.within h) h p → deeds g (options.within h) e p = done ++ d :: rest →
      Fails (options.within h).directory e.tools p done d f p' →
      Ends g options e h (.error (failure p' f), p'.leave h.directory)

theorem enter_eq_ok_iff {v w : View} {p : Path} : v.enter p = .ok w ↔
    ∃ l, v.resolve p = .ok l ∧ v.tree.lookup l = some .directory ∧ w = ⟨v.tree, l⟩ := by
  rw [View.enter]
  cases v.resolve p with
  | error e => simp [bind, Except.bind]
  | ok l =>
    cases he : View.expectDirectory v.tree l with
    | error e =>
      have hne : v.tree.lookup l ≠ some .directory := by
        intro h
        rw [(View.expectDirectory_eq_ok_iff (u := ())).2 h] at he
        cases he
      simp [bind, Except.bind, he, hne]
    | ok u =>
      simp [bind, Except.bind, pure, Except.pure, he, View.expectDirectory_eq_ok_iff.1 he, eq_comm]

theorem run_ensureDirectory (p : Path) (h : Host) :
    ∃ made, h.Makes p.ancestors made ∧ (h.isDirectory p = true → made = h) ∧
      (ExceptT.run (Action.ensureDirectory p) h = (.ok (), made) ∨
        h.isDirectory p = false ∧ ∃ e,
          ExceptT.run (Action.ensureDirectory p) h = (.error ⟨[.creating p], .io e⟩, made)) := by
  have hmakes := Action.makes_ensureDirectory p h
  cases hexists : h.exists_ p with
  | true =>
    rw [Action.run_ensureDirectory_of_exists hexists] at hmakes ⊢
    exact ⟨h, hmakes, fun _ => rfl, .inl rfl⟩
  | false =>
    have hnot : h.isDirectory p = false := by
      rw [Bool.eq_false_iff]
      intro hd
      obtain ⟨l, hl, he⟩ := View.isDirectory_iff.1 hd
      rw [View.exists_iff.2 ⟨l, _, hl, he⟩] at hexists
      cases hexists
    refine ⟨_, hmakes, fun hd => ?_, ?_⟩
    · rw [hnot] at hd
      cases hd
    · rw [Action.ensureDirectory, Action.run_change, hexists]
      cases hm : h.makeDirectories p.ancestors with
      | mk made r =>
        cases r with
        | ok u => exact .inl rfl
        | error e => exact .inr ⟨hnot, e, rfl⟩

theorem run_enter_of_ok {p : Path} {h : Host} {v : View} (henter : h.toView.enter p = .ok v) :
    ExceptT.run (Action.enter p) h = (.ok (), { h with toView := v }) := by
  rw [Action.enter, Action.run_change, Host.enter, henter]
  rfl

theorem run_enter_of_error {p : Path} {h : Host} {e : IoError}
    (henter : h.toView.enter p = .error e) :
    ExceptT.run (Action.enter p) h = (.error ⟨[.entering p], .io e⟩, h) := by
  rw [Action.enter, Action.run_change, Host.enter, henter]
  rfl

/-- The steps into the directory of a build. -/
theorem run_enterDirectory_eq (o : Options) (h : Host) :
    ExceptT.run (enterDirectory o) (Progress.start h) =
      match ExceptT.run (Action.ensureDirectory o.directory) h with
      | (.error f, made) => (.error f, ⟨made, [.changeDirectory], [], []⟩)
      | (.ok (), made) => match ExceptT.run (Action.enter o.directory) made with
        | (r, entered) => (r, ⟨entered, [.changeDirectory], [], []⟩) := by
  have hstart : ExceptT.run (Stage.enter .changeDirectory) (Progress.start h) =
      (.ok (), ⟨h, [.changeDirectory], [], []⟩) := rfl
  simp only [enterDirectory, run_bind, hstart, run_act]
  cases ExceptT.run (Action.ensureDirectory o.directory) h with
  | mk r made => cases r <;> rfl

/-- Going into the directory of a build. -/
theorem run_enterDirectory (o : Options) (h : Host) :
    (∃ p, ExceptT.run (enterDirectory o) (Progress.start h) = (.ok (), p) ∧ Entered o h p) ∨
    ∃ f p, ExceptT.run (enterDirectory o) (Progress.start h) = (.error f, p) ∧
      f.building? = none ∧ f.fault? = none ∧ h.Makes o.directory.ancestors p.host ∧
      h.isDirectory o.directory = false := by
  rw [run_enterDirectory_eq]
  obtain ⟨made, hmakes, hsame, hrun | ⟨hnot, e, hrun⟩⟩ := run_ensureDirectory o.directory h
  · simp only [hrun]
    cases henter : made.toView.enter o.directory with
    | error e =>
      rw [run_enter_of_error henter]
      refine .inr ⟨_, _, rfl, rfl, rfl, hmakes, ?_⟩
      rw [Bool.eq_false_iff]
      intro hd
      obtain ⟨l, hl, hdir⟩ := View.isDirectory_iff.1 hd
      rw [hsame hd, enter_eq_ok_iff.2 ⟨l, hl, hdir, rfl⟩] at henter
      cases henter
    | ok entered =>
      rw [run_enter_of_ok henter]
      obtain ⟨l, hl, hdir, rfl⟩ := enter_eq_ok_iff.1 henter
      obtain ⟨_, hdid⟩ := hmakes.did fun _ t => (t, .ok none)
      have hback : { made with directory := h.directory } = made := by rw [← hdid.directory]
      refine .inl ⟨_, rfl, rfl, rfl, ?_, hdir, ?_, fun hd => ?_⟩
      · show h.Makes o.directory.ancestors { made with directory := h.directory }
        rw [hback]
        exact hmakes
      · show View.resolve ⟨made.tree, h.directory⟩ o.directory = .ok l
        rw [← hdid.directory]
        exact hl
      · show made.tree = h.tree
        rw [hsame hd]
  · simp only [hrun]
    exact .inr ⟨_, _, rfl, rfl, rfl, hmakes, hnot⟩

/-- **A build ends in one of these ways.** -/
theorem run_ends (g : Generator) (options : Options) (e : Equipment) (h : Host) :
    Ends g options e h (run g options e h) := by
  rw [run]
  cases hprepare : prepare options e h with
  | error f => exact .refused hprepare
  | ok wd =>
    obtain ⟨-, -, rfl⟩ := prepare_eq_ok_iff.1 hprepare
    rcases run_enterDirectory (options.within h) h with
      ⟨p, hrun, hentered⟩ | ⟨f, p, hrun, hbuilding, hfault, hmakes, hnot⟩
    · rw [Options.within] at hrun
      simp only [hrun]
      rcases stages_unfolds (p := p) g (options.within h) e with
        ⟨bitstream, p', hp, hstages, rfl⟩ | ⟨done, d, rest, f, p', hdeeds, hfails, hstages⟩
      · rw [Options.within] at hstages
        rw [hstages]
        exact .reached hentered hp
      · rw [Options.within] at hstages
        rw [hstages]
        exact .stopped hentered hdeeds hfails
    · rw [Options.within] at hrun
      simp only [hrun]
      exact .outside hbuilding hfault hmakes hnot

/-! ### Since the build began -/

theorem journal_leave (p : Progress) (l : Location) :
    (p.leave l).host.journal = p.host.journal := by
  rw [Progress.leave, Host.returnTo]
  split <;> rfl

theorem tree_leave (p : Progress) (l : Location) : (p.leave l).host.tree = p.host.tree := by
  rw [Progress.leave, Host.returnTo]
  split <;> rfl

theorem directory_leave {p : Progress} {l : Location}
    (hthere : (p.leave l).host.tree.lookup l = some .directory) :
    (p.leave l).host.directory = l := by
  rw [tree_leave] at hthere
  rw [Progress.leave, Host.returnTo, if_pos hthere]

/-- Before a build is in its directory it only makes directories. -/
theorem Entered.made {o : Options} {h : Host} {p : Progress} (hp : Entered o h p) (tools : Tools) :
    ∃ ls : List Location, p.host.journal = h.journal ++ ls.map .madeDirectory ∧
      p.host.tree = (ls.map Event.madeDirectory).foldl (Event.apply tools) h.tree := by
  obtain ⟨ls, hdid⟩ := hp.makes.did tools
  exact ⟨ls, hdid.journal, hdid.tree⟩

/-- Everything that a build did in its directory comes after the directories that were made for
it. -/
theorem Entered.events {o : Options} {h : Host} {p p' : Progress} {directory : Path}
    {tools : Tools} {states : List BuildState} {files : List String}
    {writes : List (String × Except Failure String)} {calls : List (Invocation × Outcome)}
    (hp : Entered o h p) (hadv : Advances directory tools p states files writes calls p') :
    ∃ events, p'.host.journal = h.journal ++ events ∧
      p'.host.tree = events.foldl (Event.apply tools) h.tree ∧
      List.Forall₂ (Leads directory) writes (events.filterMap Event.written?) ∧
      events.filterMap Event.called? = calls := by
  obtain ⟨ls, hjournal, htree⟩ := hp.made tools
  obtain ⟨events, hdid, hwrites, hcalls⟩ := hadv.host
  refine ⟨ls.map .madeDirectory ++ events, ?_, ?_, ?_, ?_⟩
  · rw [hdid.journal, hjournal, List.append_assoc]
  · rw [hdid.tree, htree, List.foldl_append]
  · rw [List.filterMap_append, filterMap_written?_madeDirectory]
    exact hwrites
  · rw [List.filterMap_append, filterMap_called?_madeDirectory]
    exact hcalls

end Build

end FpgaFlow
