import FpgaFlow.Proofs.Build.Standpoint
import FpgaFlow.Proofs.Build.Written

/-!
# The working directory

Every way in which a build ends leads back to the directory that it came from, if that
is still there (`run_directory`).  In between, programs are called from the directory of
the build only (`run_calls`).

A sequence of builds threads one host through all of them, whether they succeed or fail
(`inTurn`).  By induction on the sequence the directory at the end of it is the one that
it began in, so that the next build reads its relative paths there (`run_within`).

**Main statement** `run_restores`.
-/

namespace FpgaFlow.Build

section

variable {g : Generator} {options : Options} {e : Equipment} {h : Host}

/-- **A build goes back to where it was**, however it ends. -/
theorem run_directory
    (hthere : (run g options e h).2.host.tree.lookup h.directory = some .directory) :
    (run g options e h).2.host.directory = h.directory := by
  generalize hout : run g options e h = out at hthere ⊢
  have hends : Ends g options e h out := hout ▸ run_ends g options e h
  cases hends with
  | refused => rfl
  | outside _ _ hm _ =>
    obtain ⟨_, hdid⟩ := hm.did e.tools
    exact hdid.directory
  | reached => exact directory_leave hthere
  | stopped => exact directory_leave hthere

theorem Account.directory_eq {planned good : List Call} {directory : Location}
    {bad : Option (Call × Outcome)} {events : List Event}
    {out : Except Failure Report × Progress}
    (ha : Account e.tools h planned directory good bad events out) {call : Invocation}
    {present : List String} {outcome : Outcome} (hmem : .ranTool call present outcome ∈ events) :
    call.directory = directory := by
  have hcall := mem_called?_of_mem hmem
  rw [ha.made, List.mem_append] at hcall
  rcases hcall with hcall | hcall
  · obtain ⟨c, -, heq⟩ := List.mem_map.1 hcall
    rw [← (Prod.mk.inj heq).1]
    rfl
  · obtain ⟨b, -, heq⟩ := List.mem_map.1 hcall
    rw [← (Prod.mk.inj heq).1]
    rfl

/-- **Programs are called from the directory of the build.** -/
theorem run_calls (g : Generator) (options : Options) (e : Equipment) (h : Host) :
    ∃ events, (run g options e h).2.host.journal = h.journal ++ events ∧
      ∀ call present outcome, .ranTool call present outcome ∈ events →
        call.directory = (options.within h).directory.location := by
  generalize hout : run g options e h = out
  have hends : Ends g options e h out := hout ▸ run_ends g options e h
  have hlocation {p : Progress} (hp : Entered (options.within h) h p) :
      p.host.directory = (options.within h).directory.location :=
    View.location_of_resolve (options.isAbsolute_within h) hp.resolve
  cases hends with
  | refused => exact ⟨[], (List.append_nil _).symm, by simp⟩
  | outside _ _ hm _ =>
    obtain ⟨ls, hdid⟩ := hm.did e.tools
    exact ⟨_, hdid.journal, by simp⟩
  | reached hp hall =>
    obtain ⟨events, ha⟩ := account_of_performs hp hall h.directory
    exact ⟨events, ha.journal, fun _ _ _ hmem => (ha.directory_eq hmem).trans (hlocation hp)⟩
  | stopped hp hdeeds hfails =>
    obtain ⟨_, _, events, ha⟩ := account_of_fails hp hdeeds hfails h.directory
    exact ⟨events, ha.journal, fun _ _ _ hmem => (ha.directory_eq hmem).trans (hlocation hp)⟩

/-! ### Options that have been read -/

theorem Options.rooted_within (h : Host) (options : Options) : (options.within h).Rooted := by
  have hworking : h.workingDirectory.isAbsolute = true := Path.isAbsolute_ofLocation h.directory
  constructor
  case directory => exact options.isAbsolute_within h
  case installRoot => exact Path.isAbsolute_absolutize hworking _
  case sources =>
    intro s hs
    obtain ⟨source, -, rfl⟩ := List.mem_map.1 hs
    exact Path.isAbsolute_absolutize hworking _
  case includes =>
    intro p hp
    obtain ⟨q, -, rfl⟩ := List.mem_map.1 hp
    exact Path.isAbsolute_absolutize hworking _

theorem Options.within_congr {h' : Host} (hd : h'.directory = h.directory) (options : Options) :
    options.within h' = options.within h := by
  rw [within, within, Host.workingDirectory, Host.workingDirectory, hd]

/-- A build that begins in the same directory may as well be given the paths that were read
there. -/
theorem run_within {h' : Host} (hd : h'.directory = h.directory) :
    run g options e h' = run g (options.within h) e h' := by
  have hprepare : prepare (options.within h) e h' = prepare options e h' := prepare_congr rfl e h'
  cases hready : prepare options e h' with
  | error f => rw [run_of_refused hready, run_of_refused (hprepare.trans hready)]
  | ok wd =>
    rw [run_eq hready, run_eq (hprepare.trans hready), (options.rooted_within h).within_eq,
      Options.within_congr hd]

end

/-! ### One build after the other -/

/-- A design with the options and the equipment to build it with. -/
structure Job where
  generator : Generator
  options : Options
  equipment : Equipment

def Job.run (j : Job) (h : Host) : Except Failure Report × Progress :=
  Build.run j.generator j.options j.equipment h

/-- The host after builds that were run one after the other, however each of them ended. -/
def inTurn : List Job → Host → Host
  | [], h => h
  | j :: js, h => inTurn js (j.run h).2.host

/-- A sequence of builds ends in the directory that it began in, if that was there at the end of
each of them. -/
theorem directory_inTurn {js : List Job} {h : Host}
    (hthere : ∀ done, done <+: js → done ≠ [] →
      (inTurn done h).tree.lookup h.directory = some .directory) :
    (inTurn js h).directory = h.directory := by
  induction js generalizing h with
  | nil => rfl
  | cons j js ih =>
    have hback : (j.run h).2.host.directory = h.directory :=
      run_directory (hthere [j] ⟨js, rfl⟩ (by simp))
    show (inTurn js (j.run h).2.host).directory = h.directory
    rw [ih fun done hdone _ => ?_, hback]
    rw [hback]
    exact hthere (j :: done) (List.prefix_cons_inj j |>.2 hdone) (by simp)

/-- **The working directory is restored.** A build ends where it began, its programs run in its own
directory, and each build of a sequence reads its paths below the directory that the first began
in. -/
theorem run_restores {js : List Job} {h : Host}
    (hthere : ∀ done, done <+: js → done ≠ [] →
      (inTurn done h).tree.lookup h.directory = some .directory) :
    (inTurn js h).directory = h.directory ∧
    ∀ j : Job,
      ((j.run (inTurn js h)).2.host.tree.lookup h.directory = some .directory →
        (j.run (inTurn js h)).2.host.directory = h.directory) ∧
      (∃ events, (j.run (inTurn js h)).2.host.journal = (inTurn js h).journal ++ events ∧
        ∀ call present outcome, .ranTool call present outcome ∈ events →
          call.directory = (j.options.within h).directory.location) ∧
      j.run (inTurn js h) = { j with options := j.options.within h }.run (inTurn js h) := by
  have hdirectory := directory_inTurn hthere
  refine ⟨hdirectory, fun j => ⟨fun hthere => ?_, ?_, run_within hdirectory⟩⟩
  · rw [← hdirectory] at hthere ⊢
    exact run_directory hthere
  · rw [← Options.within_congr hdirectory]
    exact run_calls _ _ _ _

/-- A build in the relative directory `build` whose control script is ended by a signal. -/
def killedJob : Job where
  generator := constant "module top;\nendmodule\n"
  options := { Options.default ⟨"xc6slx9"⟩ with source := false }
  equipment := ⟨fun _ t => (t, .ok none), .empty, none⟩

def bareHost : Host :=
  Host.start ⟨FileTree.empty.put ["p"] .directory, ["p"]⟩ []

/-- After the build that failed the next one is in the same directory `build`. -/
theorem restores_killedJob :
    (killedJob.run bareHost).1.isOk = false ∧ (inTurn [killedJob] bareHost).directory = ["p"] ∧
    killedJob.run (inTurn [killedJob] bareHost) =
      { killedJob with options := killedJob.options.within bareHost }.run
        (inTurn [killedJob] bareHost) ∧
    (killedJob.options.within bareHost).directory = ⟨"/p/build"⟩ := by
  have hthere : ∀ done, done <+: [killedJob] → done ≠ [] →
      (inTurn done bareHost).tree.lookup bareHost.directory = some .directory := by
    intro done hdone hne
    rcases List.prefix_cons_iff.1 hdone with rfl | ⟨rest, rfl, hrest⟩
    · exact absurd rfl hne
    · rw [List.prefix_nil.1 hrest]
      decide +kernel
  obtain ⟨hdirectory, hnext⟩ := run_restores hthere
  exact ⟨by decide +kernel, hdirectory, (hnext killedJob).2.2, by decide +kernel⟩

end FpgaFlow.Build
