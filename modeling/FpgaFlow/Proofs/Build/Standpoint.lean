import FpgaFlow.Proofs.Build.Extension
import FpgaFlow.Proofs.Host.Standpoint

/-!
# Builds from another directory

A build whose options have no relative path (`Options.Rooted`) does the same from
whichever directory it is started: when it has gone into its own directory nothing is
left of the one that it came from (`run_enterDirectory_moved`).

**Main statement** `run_moved`.
-/

namespace FpgaFlow.Build

/-- No path of the options is relative. -/
structure Options.Rooted (o : Options) : Prop where
  directory : o.directory.isAbsolute = true
  installRoot : o.installRoot.isAbsolute = true
  sources : ∀ s ∈ o.sources, s.path.isAbsolute = true
  includes : ∀ p ∈ o.includes, p.isAbsolute = true

theorem Options.Rooted.within_eq {o : Options} (ho : o.Rooted) (h : Host) : o.within h = o := by
  have hsources : o.sources.map (SourceFile.absolutize h.workingDirectory) = o.sources := by
    refine (List.map_congr_left fun s hs => ?_).trans (List.map_id _)
    rw [SourceFile.absolutize, Path.absolutize_of_isAbsolute _ (ho.sources s hs)]
    rfl
  have hincludes : o.includes.map (Path.absolutize h.workingDirectory) = o.includes :=
    (List.map_congr_left fun p hp => Path.absolutize_of_isAbsolute _ (ho.includes p hp)).trans
      (List.map_id _)
  rw [Options.within, Options.absolutize, hsources, hincludes,
    Path.absolutize_of_isAbsolute _ ho.directory, Path.absolutize_of_isAbsolute _ ho.installRoot]

variable {g : Generator} {o : Options} {e : Equipment} (h : Host) (d : Location)

/-- Once a build has gone into its directory, it makes no difference where it came from. -/
theorem run_enterDirectory_moved (hdirectory : o.directory.isAbsolute = true) :
    ExceptT.run (enterDirectory o) (Progress.start (h.moved d)) =
      match ExceptT.run (enterDirectory o) (Progress.start h) with
      | (.ok (), p) => (.ok (), p)
      | (.error f, p) => (.error f, { p with host := p.host.moved d }) := by
  rw [run_enterDirectory_eq, run_enterDirectory_eq, Host.run_ensureDirectory_moved h d hdirectory]
  cases ExceptT.run (Action.ensureDirectory o.directory) h with
  | mk r made =>
    cases r with
    | error f => rfl
    | ok u =>
      simp only [Action.enter, Action.run_change, Host.enter_moved made d hdirectory]
      cases made.enter o.directory <;> rfl

/-- **A build without relative paths does the same from every directory** that is there. -/
theorem run_moved (ho : o.Rooted) (hthere : h.tree.lookup h.directory = some .directory)
    (hd : h.tree.lookup d = some .directory) :
    (run g o e (h.moved d)).1 = (run g o e h).1 ∧
      (run g o e (h.moved d)).2.host.tree = (run g o e h).2.host.tree ∧
      (run g o e (h.moved d)).2.host.journal = (run g o e h).2.host.journal := by
  by_cases hmode : o.mode = .mist ∧ e.synthesizer.isNone
  · have hrefused (h' : Host) : prepare o e h' = .error (Failure.of .noSynthesizer) := if_pos hmode
    rw [run_of_refused (hrefused _), run_of_refused (hrefused _)]
    exact ⟨rfl, rfl, rfl⟩
  · have hready := prepare_of_there hmode hthere
    have hready' := prepare_of_there (h := h.moved d) hmode hd
    rw [run_eq hready, run_eq hready', ho.within_eq, ho.within_eq,
      run_enterDirectory_moved h d ho.directory]
    cases ExceptT.run (enterDirectory o) (Progress.start h) with
    | mk r p =>
      cases r with
      | error f => exact ⟨rfl, rfl, rfl⟩
      | ok u =>
        dsimp only
        cases ExceptT.run (stages g o e) p with
        | mk r p' =>
          cases r with
          | error f =>
            simp only [conclude, tree_leave, journal_leave]
            exact ⟨trivial, trivial, trivial⟩
          | ok b =>
            simp only [conclude, tree_leave, journal_leave]
            exact ⟨trivial, trivial, trivial⟩

end FpgaFlow.Build
