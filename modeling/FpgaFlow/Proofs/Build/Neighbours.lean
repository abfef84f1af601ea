import FpgaFlow.Proofs.Build.Beside
import FpgaFlow.Proofs.Build.WorkingDirectory
import FpgaFlow.Proofs.Host.Remaking

/-!
# Builds in one directory

Two builds with different names have no file in common, so that each of them does after the other
what it does alone (`undisturbed`).  When their directory cannot be entered, the first of them may
leave directories on the way to it, and then nothing more is made (`enterDirectory_again`).

**Main statement** `run_commutes`: two builds of different names in one directory leave
the same tree in either order, with the files that each of them leaves alone.  What the
system says about a directory that cannot be made may differ (`not_same_reason`).  The
statement leaves open what a build says when the path of its directory leads to a file
only since the other build (`Obstructed`).
-/

namespace FpgaFlow

namespace Build

/-! ### Whole builds -/

/-- The files that a build wrote since `h`, with their texts. -/
def filesSince (h : Host) (p : Progress) : List (Location × String) :=
  (p.host.journal.drop h.journal.length).filterMap Event.written?

/-- A job that only generates, under a plain name, and whose design does not look at what is below
the location `d`. -/
structure Job.Plain (j : Job) (d : Location) : Prop where
  only : j.options.OnlyGenerates
  name : '/' ∉ j.options.name.toList
  blind : ∀ s t : FileTree, (∀ l, ¬ (d <+: l ∧ l ≠ d) → s.lookup l = t.lookup l) →
    answer j.generator j.options j.equipment ⟨s, d⟩ =
      answer j.generator j.options j.equipment ⟨t, d⟩

section

variable {j : Job} {o : Options} {h h' : Host} {p p' : Progress} {d : Location}

theorem filesSince_eq {events : List Event} (hjournal : p.host.journal = h.journal ++ events) :
    filesSince h p = events.filterMap Event.written? := by
  rw [filesSince, hjournal, List.drop_left]

theorem conclude_snd (o : Options) (previous : Location)
    (end_ : Except Failure (Option Path) × Progress) :
    (conclude o previous end_).2 = end_.2.leave previous := by
  obtain ⟨r | r, p⟩ := end_ <;> rfl

/-- What a build says at its end depends on its states and its files. -/
theorem conclude_fst_congr {previous previous' : Location}
    {end₁ end₂ : Except Failure (Option Path) × Progress} (hresult : end₂.1 = end₁.1)
    (hstates : end₂.2.states = end₁.2.states) (hfiles : end₂.2.files = end₁.2.files) :
    (conclude o previous' end₂).1 = (conclude o previous end₁).1 := by
  obtain ⟨r, p⟩ := end₁
  obtain ⟨r', p'⟩ := end₂
  obtain rfl : r' = r := hresult
  dsimp only at hstates hfiles
  cases r' with
  | error f =>
    show Except.error (failure p' f) = Except.error (failure p f)
    rw [failure, failure, hstates]
  | ok b =>
    show Except.ok (report o p' b) = Except.ok (report o p b)
    rw [report, report, hstates, hfiles]

theorem Job.Plain.run_eq (hj : j.Plain d) (hthere : h.tree.lookup h.directory = some .directory) :
    j.run h = match ExceptT.run (enterDirectory (j.options.within h)) (Progress.start h) with
      | (.error f, p) => (.error f, p)
      | (.ok (), p) => conclude (j.options.within h) h.directory
          (ExceptT.run (stages j.generator (j.options.within h) j.equipment) p) :=
  Build.run_eq (prepare_of_there (fun hmode => hj.only.ne_mist hmode.1) hthere)

/-- A job that comes into its directory goes through its stages there. -/
theorem Job.Plain.run_entered (hj : j.Plain d)
    (hthere : h.tree.lookup h.directory = some .directory)
    (henter : ExceptT.run (enterDirectory (j.options.within h)) (Progress.start h) =
      (.ok (), p)) :
    j.run h = conclude (j.options.within h) h.directory
      (ExceptT.run (stages j.generator (j.options.within h) j.equipment) p) := by
  rw [hj.run_eq hthere, henter]

/-- A job that only generates needs nothing but a directory to begin in. -/
theorem Job.Plain.run_of_gone (hj : j.Plain d)
    (hgone : h.tree.lookup h.directory ≠ some .directory) :
    j.run h = (.error ⟨[.locating], .io .notFound⟩, Progress.start h) :=
  run_of_refused (prepare_eq_error_iff.2
    (.inr ⟨fun hmode => hj.only.ne_mist hmode.1, hgone, rfl⟩))

/-- What a job does on its own, once it is in its directory. -/
theorem Job.Plain.run_alone (hj : j.Plain d) (hp : Inside (j.options.within h).directory d p.host) :
    ∃ events, Keeping (j.options.within h).directory d ((j.options.within h).Own d) p events
      (ExceptT.run (stages j.generator (j.options.within h) j.equipment) p).2 := by
  have ho : (j.options.within h).OnlyGenerates := hj.only
  obtain ⟨-, -, events, hkeep, -⟩ := stages_beside (g := j.generator) (e := j.equipment) (q := p) ho
    hj.name (j.options.isAbsolute_within h) hp hp ⟨rfl, rfl, fun _ _ => rfl⟩ rfl
  exact ⟨events, hkeep⟩

/-- What a job does on `h'` it does on `h`: it says the same at its end and writes the same files,
and its own places are then what they are after it alone. -/
structure Undisturbed (j : Job) (h h' : Host) (own : Location → Prop) : Prop where
  result : (j.run h').1 = (j.run h).1
  files : filesSince h' (j.run h').2 = filesSince h (j.run h).2
  kept : ∀ l, own l → (j.run h').2.host.tree.lookup l = (j.run h).2.host.tree.lookup l
  left : ∀ l, ¬ own l → (j.run h').2.host.tree.lookup l = h'.tree.lookup l

theorem enterDirectory_congr {o' : Options} (h : o'.directory = o.directory) :
    enterDirectory o' = enterDirectory o := by
  rw [enterDirectory, enterDirectory, h]

theorem Entered.congr {o' : Options} (hp : Entered o h p) (hsame : o'.directory = o.directory) :
    Entered o' h p := by
  refine ⟨hp.states, hp.files, ?_, hp.target, ?_, ?_⟩ <;> rw [hsame]
  · exact hp.makes
  · exact hp.resolve
  · exact hp.same

/-- A build that is in its directory wrote nothing yet. -/
theorem filesSince_of_keeping (hp : Entered o h p) {directory : Path} {own : Location → Prop}
    {events : List Event} (hkeep : Keeping directory d own p events p') :
    filesSince h p' = events.filterMap Event.written? := by
  obtain ⟨ls, hmade, -⟩ := hp.made fun _ t => (t, .ok none)
  have hjournal : p'.host.journal = h.journal ++ (ls.map .madeDirectory ++ events) := by
    rw [hkeep.journal, hmade, List.append_assoc]
  rw [filesSince_eq hjournal, List.filterMap_append, filterMap_written?_madeDirectory,
    List.nil_append]

/-- A place that is not in the files of a build is left alone. -/
theorem Keeping.lookup_of_not_own {directory : Path} {own : Location → Prop}
    {events : List Event} (hkeep : Keeping directory d own p events p') {l : Location}
    (hl : ¬ own l) : p'.host.tree.lookup l = p.host.tree.lookup l :=
  hkeep.outside l fun text hmem => hl (hkeep.places l text hmem)

/-- **A job does the same on a host** where its directory is, and that is the same in its own places
and outside the directory. -/
theorem Job.Plain.undisturbed (hj : j.Plain d)
    (henter : ExceptT.run (enterDirectory (j.options.within h)) (Progress.start h) = (.ok (), p))
    (hp : Entered (j.options.within h) h p) (hd : p.host.directory = d)
    (hthere : h.tree.lookup h.directory = some .directory)
    (hthere' : h'.tree.lookup h.directory = some .directory)
    (hdirectory : h'.directory = h.directory) (hin : Inside (j.options.within h).directory d h')
    (hown : ∀ l, (j.options.within h).Own d l → h'.tree.lookup l = p.host.tree.lookup l)
    (houtside : ∀ l, ¬ (d <+: l ∧ l ≠ d) → h'.tree.lookup l = p.host.tree.lookup l) :
    Undisturbed j h h' ((j.options.within h).Own d) := by
  have ho : (j.options.within h).OnlyGenerates := hj.only
  have habs := j.options.isAbsolute_within h
  have hfirst : Inside (j.options.within h).directory d p.host := hd ▸ inside_of_entered habs hp
  have henter' := enterDirectory_of_inside habs hin
  rw [← Options.within_congr hdirectory] at henter'
  have hrun := hj.run_entered hthere henter
  have hrun' := hj.run_entered (hdirectory ▸ hthere') henter'
  rw [Options.within_congr hdirectory] at hrun'
  have hbeside : Beside ((j.options.within h).Own d) p
      ⟨{ h' with directory := d }, [.changeDirectory], [], []⟩ :=
    ⟨hp.states.symm, hp.files.symm, hown⟩
  have hanswer : answer j.generator (j.options.within h) j.equipment ⟨h'.tree, d⟩ =
      answer j.generator (j.options.within h) j.equipment p.host.toView := by
    have hview : p.host.toView = ⟨p.host.tree, d⟩ := by rw [← hd]
    rw [hview]
    exact hj.blind _ _ houtside
  have hin' : Inside (j.options.within h).directory d { h' with directory := d } :=
    ⟨hin.there, hin.leads⟩
  obtain ⟨hresult, hend, events, hkeep, hkeep'⟩ :=
    stages_beside ho hj.name habs hfirst hin' hbeside hanswer
  constructor
  case result => rw [hrun, hrun', conclude_fst_congr hresult hend.states hend.files]
  case files =>
    have hlast := filesSince_of_keeping hp hkeep
    have hlast' := filesSince_eq (h := h') hkeep'.journal
    rw [filesSince, ← journal_leave _ h.directory] at hlast
    rw [filesSince, ← journal_leave _ h'.directory] at hlast'
    rw [hrun, hrun', conclude_snd, conclude_snd, filesSince, filesSince, hlast, hlast']
  case kept =>
    intro l hl
    rw [hrun, hrun', conclude_snd, conclude_snd, tree_leave, tree_leave, hend.lookup l hl]
  case left =>
    intro l hl
    rw [hrun', conclude_snd, tree_leave, hkeep'.lookup_of_not_own hl]

/-- **A job is not disturbed by another one** that went before it into the same directory. -/
theorem undisturbed {j₁ j₂ : Job} (h₁ : j₁.Plain d) (h₂ : j₂.Plain d)
    (hname : j₁.options.name ≠ j₂.options.name)
    (hdirectory : j₂.options.directory = j₁.options.directory)
    (hthere : h.tree.lookup h.directory = some .directory)
    (henter : ExceptT.run (enterDirectory (j₁.options.within h)) (Progress.start h) = (.ok (), p))
    (hp : Entered (j₁.options.within h) h p) (hd : p.host.directory = d) :
    Undisturbed j₂ h (j₁.run h).2.host ((j₂.options.within h).Own d) := by
  have habs := j₁.options.isAbsolute_within h
  have hsame : (j₂.options.within h).directory = (j₁.options.within h).directory :=
    congrArg (Path.absolutize h.workingDirectory) hdirectory
  have hin : Inside (j₁.options.within h).directory d p.host := hd ▸ inside_of_entered habs hp
  have hrun := h₁.run_entered hthere henter
  obtain ⟨events, hkeep⟩ := h₁.run_alone hin
  have htree : (j₁.run h).2.host.tree = (ExceptT.run (stages j₁.generator (j₁.options.within h)
      j₁.equipment) p).2.host.tree := by rw [hrun, conclude_snd, tree_leave]
  have hthere' : (j₁.run h).2.host.tree.lookup h.directory = some .directory := by
    rw [htree]
    exact hkeep.grows.directory (hp.makes.grows.directory hthere)
  have hback : (j₁.run h).2.host.directory = h.directory :=
    run_directory (g := j₁.generator) (e := j₁.equipment) hthere'
  refine h₂.undisturbed ?_ (hp.congr hsame) hd hthere hthere' hback ?_ (fun l hl => ?_)
    fun l hl => ?_
  · rw [enterDirectory_congr hsame, henter]
  · rw [hsame]
    exact ⟨htree ▸ hkeep.inside.there, htree ▸ hkeep.inside.leads⟩
  · rw [htree]
    exact hkeep.lookup_of_not_own (not_own_of_own h₂.only.2 h₁.only.2 (Ne.symm hname) hl)
  · rw [htree]
    exact hkeep.lookup_of_not_own fun hown => hl (below_of_own hown)

/-! ### Directories that cannot be entered -/

theorem enter_of_not_isDirectory (hnot : h.isDirectory o.directory = false) :
    ∃ e, h.toView.enter o.directory = .error e := by
  cases henter : h.toView.enter o.directory with
  | ok v =>
    obtain ⟨l, hl, hdirectory, -⟩ := enter_eq_ok_iff.1 henter
    rw [View.isDirectory_iff.2 ⟨l, hl, hdirectory⟩] at hnot
    cases hnot
  | error e => exact ⟨e, rfl⟩

/-- What is found and is no directory is a file. -/
theorem isFile_of_exists {q : Path} (hexists : h.exists_ q = true)
    (hnot : h.isDirectory q = false) : h.isFile q = true := by
  obtain ⟨entry, hfind⟩ := View.exists_iff_find.1 hexists
  cases entry with
  | directory =>
    rw [View.isDirectory_iff_find.2 hfind] at hnot
    cases hnot
  | file content executable => exact View.isFile_iff_find.2 ⟨content, executable, hfind⟩

/-- Where the directory cannot be made, going into it fails and changes nothing. It fails to make
the directory unless there is a file in its place. -/
theorem enterDirectory_of_stuck (hstuck : h.Stuck o.directory.ancestors) :
    ∃ f, ExceptT.run (enterDirectory o) (Progress.start h) =
        (.error f, ⟨h, [.changeDirectory], [], []⟩) ∧
      (h.isFile o.directory = true ∨ ∃ e, f = ⟨[.creating o.directory], .io e⟩) := by
  obtain ⟨parents, hparents⟩ := Host.ancestorsFrom_eq_cons o.directory.pieces.length o.directory
  have hnot : h.isDirectory o.directory = false := by
    refine hstuck.nowhere o.directory ?_
    rw [Path.ancestors, hparents]
    rfl
  rw [run_enterDirectory_eq]
  by_cases hexists : h.exists_ o.directory = true
  · obtain ⟨e, he⟩ := enter_of_not_isDirectory hnot
    rw [Action.run_ensureDirectory_of_exists hexists]
    dsimp only
    rw [run_enter_of_error he]
    exact ⟨_, rfl, .inl (isFile_of_exists hexists hnot)⟩
  · obtain ⟨e, he⟩ := hstuck.fails
    rw [Action.ensureDirectory, Action.run_change, if_neg hexists, he]
    exact ⟨_, rfl, .inr ⟨e, rfl⟩⟩

theorem eq_or_ne_of_makes {ps : List Path} (hm : h.Makes ps h') : h' = h ∨ h'.tree ≠ h.tree := by
  cases hm with
  | refl => exact .inl rfl
  | @step h₁ _ q hm _ hmake =>
    obtain ⟨l, hl, rfl⟩ := Host.makeDirectory_eq_ok_iff.1 hmake
    obtain ⟨_, _, -, -, hnone⟩ := View.directoryTarget_eq_ok_iff.1 hl
    refine .inr fun htree => ?_
    have hnew : (h₁.makeDirectoryAt l).tree.lookup l = some .directory := by
      show (h₁.tree.put l .directory).lookup l = _
      rw [FileTree.lookup_put (View.accepts_of_directoryTarget hl), if_pos rfl]
    rw [htree] at hnew
    rw [hm.grows.directory hnew] at hnone
    cases hnone

/-- A build that does not come into its directory only made directories. -/
theorem makes_of_enterDirectory {f : Failure}
    (hfail : ExceptT.run (enterDirectory o) (Progress.start h) = (.error f, p)) :
    h.Makes o.directory.ancestors p.host := by
  obtain ⟨_, hrun, -⟩ | ⟨_, _, hrun, -, -, hmakes, -⟩ := run_enterDirectory o h
  · rw [hfail] at hrun
    cases (Prod.mk.inj hrun).1
  · rw [hfail] at hrun
    rw [(Prod.mk.inj hrun).2]
    exact hmakes

/-- A build that does not come into its directory made nothing, or it failed to make the
directory. -/
theorem made_of_enterDirectory (habs : o.directory.isAbsolute = true) {f : Failure}
    (hfail : ExceptT.run (enterDirectory o) (Progress.start h) = (.error f, p)) :
    p = ⟨p.host, [.changeDirectory], [], []⟩ ∧ (p.host = h ∨ h.exists_ o.directory = false ∧
      ∃ e, h.makeDirectories o.directory.ancestors = (p.host, .error e) ∧
        f = ⟨[.creating o.directory], .io e⟩) := by
  obtain ⟨parents, hparents⟩ := Host.ancestorsFrom_eq_cons o.directory.pieces.length o.directory
  rw [run_enterDirectory_eq] at hfail
  cases hexists : h.exists_ o.directory with
  | true =>
    rw [Action.run_ensureDirectory_of_exists hexists] at hfail
    cases henter : h.toView.enter o.directory with
    | ok v =>
      simp only [run_enter_of_ok henter] at hfail
      cases (Prod.mk.inj hfail).1
    | error e =>
      simp only [run_enter_of_error henter] at hfail
      obtain ⟨-, rfl⟩ := Prod.mk.inj hfail
      exact ⟨rfl, .inl rfl⟩
  | false =>
    rw [Action.ensureDirectory, Action.run_change, hexists] at hfail
    cases hmade : h.makeDirectories o.directory.ancestors with
    | mk made r =>
      rw [hmade] at hfail
      cases r with
      | ok u =>
        -- the directory is there by now, so that it can be entered
        rw [Path.ancestors, hparents] at hmade
        obtain ⟨l, hl, hdirectory⟩ :=
          View.isDirectory_iff.1 (Host.isDirectory_of_makeDirectories habs hmade)
        simp only [Bool.false_eq_true, if_false, Action.inContext, Except.mapError,
          run_enter_of_ok (enter_eq_ok_iff.2 ⟨l, hl, hdirectory, rfl⟩)] at hfail
        cases (Prod.mk.inj hfail).1
      | error e =>
        obtain ⟨hf, rfl⟩ := Prod.mk.inj hfail
        exact ⟨rfl, .inr ⟨rfl, e, rfl, (Except.error.inj hf).symm⟩⟩

/-- The path of a directory is one that leads to a file, but only since an attempt to make the
directory. -/
def Obstructed (h later : Host) (directory : Path) : Prop :=
  h.exists_ directory = false ∧ later.isFile directory = true

/-- **A directory that could not be entered cannot be entered again**, and the second attempt
leaves the tree as it is. It fails for the same reason if the first one made no directory, and else
both fail to make the directory. -/
theorem enterDirectory_again (habs : o.directory.isAbsolute = true) {f : Failure}
    (hfail : ExceptT.run (enterDirectory o) (Progress.start h) = (.error f, p)) :
    ∃ f', ExceptT.run (enterDirectory o) (Progress.start p.host) = (.error f', p) ∧
      (f' = f ∨ p.host.tree ≠ h.tree ∧ (∃ e, f = ⟨[.creating o.directory], .io e⟩) ∧
        (¬ Obstructed h p.host o.directory → ∃ e, f' = ⟨[.creating o.directory], .io e⟩)) := by
  obtain ⟨hp, hcase⟩ := made_of_enterDirectory habs hfail
  rcases eq_or_ne_of_makes (makes_of_enterDirectory hfail) with hback | hne
  · exact ⟨f, by rw [hback, hfail], .inl rfl⟩
  rcases hcase with hback | ⟨hmissing, e, hmade, rfl⟩
  · exact absurd (congrArg (fun k : Host => k.tree) hback) hne
  obtain ⟨f', hagain, hreason⟩ :=
    enterDirectory_of_stuck (Host.makeDirectories_again (Host.climbs_ancestors habs) hmade)
  refine ⟨f', by rw [hp]; exact hagain, .inr ⟨hne, ⟨e, rfl⟩, fun hclear => ?_⟩⟩
  exact hreason.resolve_left fun hfile => hclear ⟨hmissing, hfile⟩

end

/-! ### Two builds in either order -/

/-- Two builds failed to make their directory. The first of them made directories on the way to it
and the second one made nothing more. -/
structure FailsAgain (h : Host) (directory : Path)
    (alone after : Except Failure Report × Progress) : Prop where
  failed : ∃ e, alone.1 = .error ⟨[.creating directory], .io e⟩
  failedAgain : ∃ e, after.1 = .error ⟨[.creating directory], .io e⟩
  made : alone.2.host.tree ≠ h.tree
  kept : after.2.host.tree = alone.2.host.tree

/-- A build after another one ends as it does alone on `h`. Only where it made directories and yet
failed to make its own may the system give another reason for that. -/
def SameEnd (h : Host) (directory : Path) (alone after : Except Failure Report × Progress) : Prop :=
  after.1 = alone.1 ∨ FailsAgain h directory alone after

/-- What two jobs leave does not depend on their order, and each does what it does alone. -/
structure Commutes (h : Host) (j₁ j₂ : Job) : Prop where
  tree : (j₂.run (j₁.run h).2.host).2.host.tree = (j₁.run (j₂.run h).2.host).2.host.tree
  first : ¬ Obstructed h (j₂.run h).2.host (j₁.options.within h).directory →
    SameEnd h (j₁.options.within h).directory (j₁.run h) (j₁.run (j₂.run h).2.host)
  second : ¬ Obstructed h (j₁.run h).2.host (j₂.options.within h).directory →
    SameEnd h (j₂.options.within h).directory (j₂.run h) (j₂.run (j₁.run h).2.host)
  ok₁ : (j₁.run (j₂.run h).2.host).1.isOk = (j₁.run h).1.isOk
  ok₂ : (j₂.run (j₁.run h).2.host).1.isOk = (j₂.run h).1.isOk
  files₁ : filesSince (j₂.run h).2.host (j₁.run (j₂.run h).2.host).2 = filesSince h (j₁.run h).2
  files₂ : filesSince (j₁.run h).2.host (j₂.run (j₁.run h).2.host).2 = filesSince h (j₂.run h).2
  kept₁ : ∀ w ∈ filesSince h (j₁.run h).2,
    (j₂.run (j₁.run h).2.host).2.host.tree.lookup w.1 = (j₁.run h).2.host.tree.lookup w.1
  kept₂ : ∀ w ∈ filesSince h (j₂.run h).2,
    (j₂.run (j₁.run h).2.host).2.host.tree.lookup w.1 = (j₂.run h).2.host.tree.lookup w.1
  rest : ∀ l, (∀ w ∈ filesSince h (j₁.run h).2, w.1 ≠ l) →
    (j₂.run (j₁.run h).2.host).2.host.tree.lookup l = (j₂.run h).2.host.tree.lookup l

section

variable {j j₁ j₂ : Job} {h : Host} {p : Progress} {d : Location} {f : Failure}

/-- The files of a job are in its own places, and nothing else is changed in its directory. -/
theorem Job.Plain.alone (hj : j.Plain d)
    (hthere : h.tree.lookup h.directory = some .directory)
    (henter : ExceptT.run (enterDirectory (j.options.within h)) (Progress.start h) = (.ok (), p))
    (hp : Entered (j.options.within h) h p) (hd : p.host.directory = d) :
    (∀ w ∈ filesSince h (j.run h).2, (j.options.within h).Own d w.1) ∧
    ∀ l, (∀ w ∈ filesSince h (j.run h).2, w.1 ≠ l) →
      (j.run h).2.host.tree.lookup l = p.host.tree.lookup l := by
  have hin : Inside (j.options.within h).directory d p.host :=
    hd ▸ inside_of_entered (j.options.isAbsolute_within h) hp
  obtain ⟨events, hkeep⟩ := hj.run_alone hin
  have hrun := hj.run_entered hthere henter
  have hfiles : filesSince h (j.run h).2 = events.filterMap Event.written? := by
    have hlast := filesSince_of_keeping hp hkeep
    rw [filesSince, ← journal_leave _ h.directory] at hlast
    rw [hrun, conclude_snd, filesSince, hlast]
  rw [hfiles, hrun, conclude_snd, tree_leave]
  refine ⟨fun w hw => hkeep.places w.1 w.2 (mem_written?_iff.1 hw), fun l hl => ?_⟩
  exact hkeep.outside l fun text hmem => hl (l, text) (mem_written?_iff.2 hmem) rfl

/-- Jobs that come into their directory commute. -/
theorem commutes_of_entered (hthere : h.tree.lookup h.directory = some .directory)
    (hdirectory : j₂.options.directory = j₁.options.directory)
    (hname : j₁.options.name ≠ j₂.options.name) (h₁ : j₁.Plain d) (h₂ : j₂.Plain d)
    (henter : ExceptT.run (enterDirectory (j₁.options.within h)) (Progress.start h) = (.ok (), p))
    (hp : Entered (j₁.options.within h) h p) (hd : p.host.directory = d) :
    Commutes h j₁ j₂ := by
  have hsame : (j₂.options.within h).directory = (j₁.options.within h).directory :=
    congrArg (Path.absolutize h.workingDirectory) hdirectory
  have henter' : ExceptT.run (enterDirectory (j₂.options.within h)) (Progress.start h) =
      (.ok (), p) := by rw [enterDirectory_congr hsame, henter]
  have hp' : Entered (j₂.options.within h) h p := hp.congr hsame
  have u₂ := undisturbed h₁ h₂ hname hdirectory hthere henter hp hd
  have u₁ := undisturbed h₂ h₁ hname.symm hdirectory.symm hthere henter' hp' hd
  obtain ⟨hown₁, halone₁⟩ := h₁.alone hthere henter hp hd
  obtain ⟨hown₂, halone₂⟩ := h₂.alone hthere henter' hp' hd
  have hapart {l : Location} (hl : (j₁.options.within h).Own d l) :
      ¬ (j₂.options.within h).Own d l := not_own_of_own h₁.only.2 h₂.only.2 hname hl
  have hout₁ {l : Location} (hl : ¬ (j₁.options.within h).Own d l) :
      (j₁.run h).2.host.tree.lookup l = p.host.tree.lookup l :=
    halone₁ l fun w hw heq => hl (heq ▸ hown₁ w hw)
  have hout₂ {l : Location} (hl : ¬ (j₂.options.within h).Own d l) :
      (j₂.run h).2.host.tree.lookup l = p.host.tree.lookup l :=
    halone₂ l fun w hw heq => hl (heq ▸ hown₂ w hw)
  constructor
  case tree =>
    refine FileTree.ext_lookup fun l => ?_
    by_cases hl : (j₁.options.within h).Own d l
    · rw [u₁.kept l hl, u₂.left l (hapart hl)]
    · rw [u₁.left l hl]
      by_cases hl' : (j₂.options.within h).Own d l
      · rw [u₂.kept l hl']
      · rw [u₂.left l hl', hout₁ hl, hout₂ hl']
  case first => exact fun _ => .inl u₁.result
  case second => exact fun _ => .inl u₂.result
  case ok₁ => rw [u₁.result]
  case ok₂ => rw [u₂.result]
  case files₁ => exact u₁.files
  case files₂ => exact u₂.files
  case kept₁ => exact fun w hw => u₂.left w.1 (hapart (hown₁ w hw))
  case kept₂ => exact fun w hw => u₂.kept w.1 (hown₂ w hw)
  case rest =>
    intro l hl
    by_cases hl' : (j₂.options.within h).Own d l
    · exact u₂.kept l hl'
    · rw [u₂.left l hl', halone₁ l hl, hout₂ hl']

/-- A build that only made directories wrote no file. -/
theorem filesSince_of_makes {ps : List Path} (hm : h.Makes ps p.host) : filesSince h p = [] := by
  obtain ⟨ls, hdid⟩ := hm.did fun _ t => (t, .ok none)
  rw [filesSince_eq hdid.journal, filterMap_written?_madeDirectory]

/-- Jobs that do not come into their directory leave the directories that the first one made. -/
theorem commutes_of_barred (hthere : h.tree.lookup h.directory = some .directory)
    (hdirectory : j₂.options.directory = j₁.options.directory) (h₁ : j₁.Plain d) (h₂ : j₂.Plain d)
    (hfail : ExceptT.run (enterDirectory (j₁.options.within h)) (Progress.start h) =
      (.error f, p)) : Commutes h j₁ j₂ := by
  have habs := j₁.options.isAbsolute_within h
  have hmakes := makes_of_enterDirectory hfail
  obtain ⟨f', hagain, hreason⟩ := enterDirectory_again habs hfail
  obtain ⟨_, hdid⟩ := hmakes.did fun _ t => (t, .ok none)
  have hback : p.host.directory = h.directory := hdid.directory
  have hthere' : p.host.tree.lookup p.host.directory = some .directory := by
    rw [hback]
    exact hmakes.grows.directory hthere
  have hsame : (j₂.options.within h).directory = (j₁.options.within h).directory :=
    congrArg (Path.absolutize h.workingDirectory) hdirectory
  have halone {j : Job} (hj : j.Plain d)
      (hdir : (j.options.within h).directory = (j₁.options.within h).directory) :
      j.run h = (.error f, p) ∧ j.run p.host = (.error f', p) := by
    rw [hj.run_eq hthere, hj.run_eq hthere', Options.within_congr hback, enterDirectory_congr hdir,
      hfail, hagain]
    exact ⟨rfl, rfl⟩
  obtain ⟨hrun₁, hagain₁⟩ := halone h₁ rfl
  obtain ⟨hrun₂, hagain₂⟩ := halone h₂ hsame
  have hend (hclear : ¬ Obstructed h p.host (j₁.options.within h).directory) :
      SameEnd h (j₁.options.within h).directory (.error f, p) (.error f', p) := by
    rcases hreason with rfl | ⟨hmade, ⟨e, rfl⟩, hafter⟩
    · exact .inl rfl
    · obtain ⟨e', rfl⟩ := hafter hclear
      exact .inr ⟨⟨e, rfl⟩, ⟨e', rfl⟩, hmade, rfl⟩
  have hnone : filesSince h p = [] := filesSince_of_makes hmakes
  have hnone' : filesSince p.host p = [] := filesSince_of_makes (.refl p.host : Host.Makes [] _ _)
  constructor
  case tree => rw [hrun₁, hrun₂, hagain₁, hagain₂]
  case first => rw [hrun₁, hrun₂, hagain₁]; exact hend
  case second => rw [hrun₁, hrun₂, hagain₂, hsame]; exact hend
  case ok₁ => rw [hrun₁, hrun₂, hagain₁]; rfl
  case ok₂ => rw [hrun₁, hrun₂, hagain₂]; rfl
  case files₁ => rw [hrun₁, hrun₂, hagain₁, hnone, hnone']
  case files₂ => rw [hrun₁, hrun₂, hagain₂, hnone, hnone']
  case kept₁ => rw [hrun₁, hagain₂]; exact fun _ _ => rfl
  case kept₂ => rw [hrun₁, hrun₂, hagain₂]; exact fun _ _ => rfl
  case rest => rw [hrun₁, hrun₂, hagain₂]; exact fun _ _ => rfl

/-- Jobs that are refused do nothing. -/
theorem commutes_of_refused (hrun₁ : j₁.run h = (.error f, Progress.start h))
    (hrun₂ : j₂.run h = (.error f, Progress.start h)) : Commutes h j₁ j₂ := by
  have hstay : (Progress.start h).host = h := rfl
  constructor
  case tree => rw [hrun₁, hrun₂, hstay, hrun₁, hrun₂]
  case first => rw [hrun₂, hstay]; exact fun _ => .inl rfl
  case second => rw [hrun₁, hstay]; exact fun _ => .inl rfl
  case ok₁ => rw [hrun₂, hstay]
  case ok₂ => rw [hrun₁, hstay]
  case files₁ => rw [hrun₂, hstay]
  case files₂ => rw [hrun₁, hstay]
  case kept₁ => rw [hrun₁, hstay, hrun₂]; exact fun _ _ => rfl
  case kept₂ => rw [hrun₁, hstay]; exact fun _ _ => rfl
  case rest => rw [hrun₁, hstay]; exact fun _ _ => rfl

/-- **Builds of different names in one directory do not interfere.** In either order they leave the
same tree, in which the files of each are those that it leaves alone, and each ends as it does
alone, but for the reason why a directory cannot be made. -/
theorem run_commutes {h : Host} {j₁ j₂ : Job}
    (hdirectory : j₂.options.directory = j₁.options.directory)
    (hname : j₁.options.name ≠ j₂.options.name)
    (h₁ : j₁.Plain (j₁.options.within h).directory.location)
    (h₂ : j₂.Plain (j₁.options.within h).directory.location) : Commutes h j₁ j₂ := by
  by_cases hthere : h.tree.lookup h.directory = some .directory
  · obtain ⟨p, henter, hp⟩ | ⟨f, p, hfail, -⟩ := run_enterDirectory (j₁.options.within h) h
    · have hd := View.location_of_resolve (j₁.options.isAbsolute_within h) hp.resolve
      exact commutes_of_entered hthere hdirectory hname h₁ h₂ henter hp hd
    · exact commutes_of_barred hthere hdirectory h₁ h₂ hfail
  · exact commutes_of_refused (h₁.run_of_gone hthere) (h₂.run_of_gone hthere)

end

/-- A job of a design that looks at nothing. -/
def steadyJob (mode : Mode) (directory : Path) (name : String) : Job where
  generator := constant "module top;\nendmodule\n"
  options := { Options.default ⟨"xc6slx9"⟩ with
    mode := mode, directory := directory, name := name, run := false }
  equipment := ⟨quiet, .empty, none⟩

theorem plain_steadyJob {mode : Mode} (hmode : mode = .xst ∨ mode = .edif) (directory : Path)
    {name : String} (hname : '/' ∉ name.toList) (d : Location) :
    (steadyJob mode directory name).Plain d := by
  refine ⟨⟨hmode, rfl⟩, hname, fun s t _ => ?_⟩
  rcases hmode with rfl | rfl <;> rfl

/-- The names of the files of two builds look alike, up to the last points in them. -/
theorem commutes_steadyJob :
    Commutes bareHost (steadyJob .xst ⟨"build"⟩ "a") (steadyJob .edif ⟨"build"⟩ "a.v") ∧
    filesSince bareHost ((steadyJob .xst ⟨"build"⟩ "a").run bareHost).2 =
      [(["p", "build", "a.v"], "module top;\nendmodule\n"),
        (["p", "build", "a.prj"], "verilog work a.v\n"),
        (["p", "build", "a.xst"], XstProject.runScript ⟨"xc6slx9"⟩ [] "a"
          (Options.default ⟨"xc6slx9"⟩).tools.xst),
        (["p", "build", "a.ucf"], "")] ∧
    (filesSince bareHost ((steadyJob .edif ⟨"build"⟩ "a.v").run bareHost).2).map Prod.fst =
      [["p", "build", "a.v.edif"], ["p", "build", "a.v.ucf"]] := by
  refine ⟨run_commutes rfl (by decide) ?_ ?_, by decide +kernel, by decide +kernel⟩
  · exact plain_steadyJob (.inl rfl) _ (by decide) _
  · exact plain_steadyJob (.inr rfl) _ (by decide) _

/-- A host with a file in the place of a directory. -/
def blockedHost : Host :=
  Host.start ⟨FileTree.empty.plant ["p", "f"] (.file (.text "") false), ["p"]⟩ []

/-- The text of the failure of a build. -/
def errorText : Except Failure Report → Option String
  | .ok _ => none
  | .error f => some f.message

/-- **The reason why a directory cannot be made may depend on an attempt that went before.** On the
way to `a/../f/x` the first build makes the directory `a` and is stopped by the file `f`, through
which the second one can then not go. -/
theorem not_same_reason :
    let first := steadyJob .xst ⟨"a/../f/x"⟩ "one"
    let second := steadyJob .xst ⟨"a/../f/x"⟩ "two"
    first.Plain ["p", "f", "x"] ∧ second.Plain ["p", "f", "x"] ∧
    errorText (second.run blockedHost).1 =
      some "failed to create directory: /p/a/../f/x: File exists (os error 17)" ∧
    errorText (second.run (first.run blockedHost).2.host).1 =
      some "failed to create directory: /p/a/../f/x: Not a directory (os error 20)" ∧
    (second.run (first.run blockedHost).2.host).1 ≠ (second.run blockedHost).1 := by
  intro first second
  have halone : errorText (second.run blockedHost).1 =
      some "failed to create directory: /p/a/../f/x: File exists (os error 17)" := by
    decide +kernel
  have hafter : errorText (second.run (first.run blockedHost).2.host).1 =
      some "failed to create directory: /p/a/../f/x: Not a directory (os error 20)" := by
    decide +kernel
  refine ⟨plain_steadyJob (.inl rfl) _ (by decide) _, plain_steadyJob (.inl rfl) _ (by decide) _,
    halone, hafter, fun heq => ?_⟩
  rw [heq, halone] at hafter
  exact absurd hafter (by decide)

end Build

end FpgaFlow
