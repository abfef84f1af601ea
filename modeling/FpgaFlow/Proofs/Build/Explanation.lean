import FpgaFlow.Proofs.Build.Neighbours

/-!
# What the failure of a build says

A build that fails inside its directory says in which state it did, and through which
states it came there (`Traced`).  One that does not come into its directory says only
what went wrong with the directory (`Barred`): the state that it had entered for that
is not part of its failure.

**Main statement** `run_explains`: a build that has what its mode needs fails with the
trace of its states exactly when it begins in a directory and its own can be entered.
`untraced_blocked` is a build whose directory is a file.
-/

namespace FpgaFlow

namespace Build

/-- A failure says in which state its build failed, and names all states up to there. -/
def Traced (f : Failure) : Prop :=
  ∃ failedIn before, f.contexts.head? = some (.building failedIn (before ++ [.failed])) ∧
    before.head? = some .changeDirectory ∧ before.getLast? = some failedIn

/-- A failure says what went wrong with a directory, and nothing of a build. -/
def Barred (directory : Path) (f : Failure) : Prop :=
  ∃ e, f = ⟨[.creating directory], .io e⟩ ∨ f = ⟨[.entering directory], .io e⟩

/-- There is a synthesizer, if the mode of a build needs one. -/
def Options.Equipped (options : Options) (e : Equipment) : Prop :=
  options.mode = .mist → e.synthesizer.isSome = true

/-- The directory of a build is there or can be made, and can be entered. -/
def Options.Enterable (options : Options) (h : Host) : Prop :=
  ∃ p, ExceptT.run (enterDirectory (options.within h)) (Progress.start h) = (.ok (), p)

/-- The working directory is still there. -/
def Located (h : Host) : Prop :=
  h.tree.lookup h.directory = some .directory

/-- What a build says when it fails. -/
def Explains (options : Options) (e : Equipment) (h : Host) : Except Failure Report → Prop
  | .ok _ => options.Equipped e ∧ Located h ∧ options.Enterable h
  | .error f =>
    (¬ options.Equipped e ∧ f = Failure.of .noSynthesizer) ∨
    (options.Equipped e ∧ ¬ Located h ∧ f = ⟨[.locating], .io .notFound⟩) ∨
    (options.Equipped e ∧ Located h ∧ ¬ options.Enterable h ∧
      Barred (options.within h).directory f) ∨
    (options.Equipped e ∧ Located h ∧ options.Enterable h ∧ Traced f)

/-- A build has what its mode needs unless its mode needs a synthesizer and there is none. -/
theorem equipped_iff {options : Options} {e : Equipment} :
    options.Equipped e ↔ ¬ (options.mode = .mist ∧ e.synthesizer.isNone) := by
  rw [Options.Equipped, not_and, Bool.not_eq_true, Option.isNone_eq_false_iff]

/-- Nothing but a directory that cannot be made or entered keeps a build out. -/
theorem barred_of_enterDirectory {o : Options} {h : Host} {f : Failure} {p : Progress}
    (hrun : ExceptT.run (enterDirectory o) (Progress.start h) = (.error f, p)) :
    Barred o.directory f := by
  rw [run_enterDirectory_eq] at hrun
  obtain ⟨made, -, -, hensure | ⟨-, e, hensure⟩⟩ := run_ensureDirectory o.directory h
  · simp only [hensure] at hrun
    cases henter : made.toView.enter o.directory with
    | ok entered =>
      rw [run_enter_of_ok henter] at hrun
      cases (Prod.mk.inj hrun).1
    | error e =>
      rw [run_enter_of_error henter] at hrun
      exact ⟨e, .inr (Except.error.inj (Prod.mk.inj hrun).1).symm⟩
  · simp only [hensure] at hrun
    exact ⟨e, .inl (Except.error.inj (Prod.mk.inj hrun).1).symm⟩

/-- A deed that fails leaves the states that were entered before it. -/
theorem traced_of_fails {o : Options} {e : Equipment} {h : Host} {p p' : Progress}
    {done : List Deed} {d : Deed} {f : Failure} (hp : Entered o h p)
    (hfails : Fails o.directory e.tools p done d f p') : Traced (failure p' f) := by
  obtain ⟨_, hadv⟩ := hfails.advances
  have hstates : p'.states = .changeDirectory :: done.filterMap Deed.state? := by
    rw [hadv.states, hp.states]
    rfl
  refine ⟨p'.states.getLast?.getD .changeDirectory, p'.states, rfl, ?_, ?_⟩
  · rw [hstates]
    rfl
  · rw [hstates, List.getLast?_cons]
    rfl

/-- **A failed build says in which state it failed exactly when it came into its directory.** One
that was refused before says what it lacks. -/
theorem run_explains (g : Generator) (options : Options) (e : Equipment) (h : Host) :
    Explains options e h (run g options e h).1 := by
  cases hprepare : prepare options e h with
  | error f =>
    rw [run_of_refused hprepare]
    rcases prepare_eq_error_iff.1 hprepare with ⟨hnone, rfl⟩ | ⟨hsome, hgone, rfl⟩
    · exact .inl ⟨fun hequipped => equipped_iff.1 hequipped hnone, rfl⟩
    · exact .inr (.inl ⟨equipped_iff.2 hsome, hgone, rfl⟩)
  | ok wd =>
    obtain ⟨hsome, hlocated, -⟩ := prepare_eq_ok_iff.1 hprepare
    have hequipped : options.Equipped e := equipped_iff.2 hsome
    rw [run_eq hprepare]
    rcases run_enterDirectory (options.within h) h with ⟨p, hrun, hentered⟩ | ⟨f, p, hrun, -⟩
    · have henterable : options.Enterable h := ⟨p, hrun⟩
      simp only [hrun]
      rcases stages_unfolds (p := p) g (options.within h) e with
        ⟨bitstream, p', -, hstages, -⟩ | ⟨done, d, rest, f, p', -, hfails, hstages⟩
      · rw [hstages]
        exact ⟨hequipped, hlocated, henterable⟩
      · rw [hstages]
        exact .inr (.inr (.inr
          ⟨hequipped, hlocated, henterable, traced_of_fails hentered hfails⟩))
    · have hbarred := barred_of_enterDirectory hrun
      have hnot : ¬ options.Enterable h := by
        rintro ⟨_, hok⟩
        rw [hrun] at hok
        cases (Prod.mk.inj hok).1
      simp only [hrun]
      exact .inr (.inr (.inl ⟨hequipped, hlocated, hnot, hbarred⟩))

theorem Traced.trace_ne_nil {f : Failure} (h : Traced f) : trace (.error f) ≠ [] := by
  obtain ⟨failedIn, before, hhead, -⟩ := h
  obtain ⟨rest, hcontexts⟩ := List.head?_eq_some_iff.1 hhead
  have hbuilding : f.building? = some (failedIn, before ++ [.failed]) := by
    rw [Failure.building?, hcontexts]
    rfl
  rw [trace, hbuilding]
  exact List.append_ne_nil_of_right_ne_nil before (by simp)

/-- **A build whose directory is a file fails without its trace.** It has entered its first state:
its mode needs nothing that is not there, and it begins in a directory. -/
theorem untraced_blocked :
    let job := steadyJob .xst ⟨"f"⟩ "top"
    job.options.Equipped job.equipment ∧ Located blockedHost ∧
    errorText (job.run blockedHost).1 =
      some "failed to enter directory: /p/f: Not a directory (os error 20)" ∧
    ∀ f, (job.run blockedHost).1 = .error f → ¬ Traced f := by
  intro job
  have hequipped : job.options.Equipped job.equipment := fun hmode => by cases hmode
  have hlocated : blockedHost.tree.lookup blockedHost.directory = some .directory := by
    decide +kernel
  have htrace : trace (job.run blockedHost).1 = [] := by decide +kernel
  refine ⟨hequipped, hlocated, by decide +kernel, fun f hf htraced => htraced.trace_ne_nil ?_⟩
  rw [← hf, htrace]

end Build

end FpgaFlow
