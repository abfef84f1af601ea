import FpgaFlow.Proofs.Build.Repeat
import FpgaFlow.Proofs.Tree.Below

/-!
# A build beside another one

A build that only generates puts files with plain names into its directory and does nothing else to
the tree (`plain_of_mem_deeds`).  What it reads of the tree are the places of these files, so that
it does the same in two trees that have the same in them.

* `runAlike_performAll`: plain deeds do the same in both trees, and keep everything else.
* `stages_beside`: so do the stages of a build.
* `enterDirectory_of_inside`: a directory that is there is entered without a change.
-/

namespace FpgaFlow

namespace Build

/-! ### Plain files -/

/-- The directory of a build is there, at a location. -/
structure Inside (directory : Path) (d : Location) (h : Host) : Prop where
  there : h.tree.lookup d = some .directory
  leads : View.walk h.tree [] directory.steps = .ok d

section

variable {directory : Path} {d : Location} {h h' : Host} {file text : String}

theorem Inside.of_grows (hin : Inside directory d h) (hgrows : h.tree.Grows h'.tree) :
    Inside directory d h' :=
  ⟨hgrows.directory hin.there, View.walk_of_grows hgrows hin.leads⟩

theorem Inside.parentTarget (habs : directory.isAbsolute = true) (hin : Inside directory d h)
    (hfile : FileTree.IsName file) :
    h.parentTarget (directory.child file) = .ok (d, some file) := by
  refine View.parentTarget_eq_ok_iff.2 ⟨directory.steps, ?_, hfile, ?_, hin.there⟩
  · rw [Path.steps_child directory hfile.2.2.2, if_neg hfile.1]
  · rw [View.start_eq_nil (Path.isAbsolute_child habs file)]
    exact hin.leads

/-- **Writing a plain file** fails if a directory is in its place, and makes no directory. -/
theorem Inside.run_writeText (habs : directory.isAbsolute = true) (hin : Inside directory d h)
    (hfile : FileTree.IsName file) (text : String) :
    ExceptT.run (Action.writeText (directory.child file) text) h =
      if h.tree.lookup (d ++ [file]) = some .directory then
        (.error ⟨[.writing (directory.child file)], .io .isADirectory⟩, h)
      else (.ok (), h.writeFileAt (d ++ [file]) text) := by
  have hparent := hin.parentTarget habs hfile
  have hslash : (directory.child file).endsInSlash = false := by
    rw [Path.endsInSlash_child (Path.text_ne_empty_of_isAbsolute habs) hfile.2.2.2]
    exact decide_eq_false hfile.1
  rw [Action.run_writeText_of_parentTarget (Path.isAbsolute_child habs file) hparent,
    Action.writeHere, Action.run_change]
  by_cases hdir : h.tree.lookup (d ++ [file]) = some .directory
  · have htarget : h.fileTarget (directory.child file) = .error .isADirectory := by
      rw [View.fileTarget, hparent]
      simp only [bind, Except.bind, hslash, Bool.false_eq_true, if_false, hdir]
    rw [if_pos hdir, Host.writeFile, htarget]
    rfl
  · have htarget : h.fileTarget (directory.child file) = .ok (d ++ [file]) :=
      View.fileTarget_eq_ok_iff.2 ⟨d, file, hparent, hslash, rfl, hdir⟩
    rw [if_neg hdir, Host.writeFile_eq_ok_iff.2 ⟨_, htarget, rfl⟩]

theorem Inside.fileTarget (habs : directory.isAbsolute = true) (hin : Inside directory d h)
    (hfile : FileTree.IsName file) (hdir : h.tree.lookup (d ++ [file]) ≠ some .directory) :
    h.fileTarget (directory.child file) = .ok (d ++ [file]) := by
  refine View.fileTarget_eq_ok_iff.2 ⟨d, file, hin.parentTarget habs hfile, ?_, rfl, hdir⟩
  rw [Path.endsInSlash_child (Path.text_ne_empty_of_isAbsolute habs) hfile.2.2.2]
  exact decide_eq_false hfile.1

end

/-! ### A build beside another -/

/-- A build wrote files, in places of its own, and did nothing else to the tree. -/
structure Keeping (directory : Path) (d : Location) (own : Location → Prop) (p : Progress)
    (events : List Event) (p' : Progress) : Prop where
  journal : p'.host.journal = p.host.journal ++ events
  places : ∀ l text, .wroteFile l text ∈ events → own l
  outside : ∀ l, (∀ text, .wroteFile l text ∉ events) →
    p'.host.tree.lookup l = p.host.tree.lookup l
  inside : Inside directory d p'.host
  grows : p.host.tree.Grows p'.host.tree

/-- A build is as far in one tree as in another that is the same in its own places. -/
structure Beside (own : Location → Prop) (p q : Progress) : Prop where
  states : q.states = p.states
  files : q.files = p.files
  lookup : ∀ l, own l → q.host.tree.lookup l = p.host.tree.lookup l

/-- A deed that does nothing to the tree but to write a plain file in one of some places. -/
def Deed.Plain (d : Location) (own : Location → Prop) : Deed → Prop
  | .write file _ => FileTree.IsName file ∧ own (d ++ [file])
  | .call _ => False
  | _ => True

/-- Two runs that end alike, each after it did the same in its own tree. -/
def RunAlike {α : Type} (directory : Path) (d : Location) (own : Location → Prop) (p q : Progress)
    (out out' : Except Failure α × Progress) : Prop :=
  out'.1 = out.1 ∧ Beside own out.2 out'.2 ∧ ∃ events,
    Keeping directory d own p events out.2 ∧ Keeping directory d own q events out'.2

section

variable {directory : Path} {d : Location} {own : Location → Prop}
  {p q p' q' p₁ q₁ : Progress}

theorem Keeping.of_host_eq (hp : Inside directory d p.host) (hhost : p'.host = p.host) :
    Keeping directory d own p [] p' := by
  have htree : p'.host.tree = p.host.tree := congrArg (fun h => h.tree) hhost
  refine ⟨?_, fun _ _ hmem => absurd hmem List.not_mem_nil, fun l _ => by rw [htree], ?_, ?_⟩
  · rw [hhost, List.append_nil]
  · rw [hhost]
    exact hp
  · rw [htree]
    exact FileTree.Grows.refl _

theorem Keeping.trans {xs ys : List Event} (hx : Keeping directory d own p xs p₁)
    (hy : Keeping directory d own p₁ ys p') : Keeping directory d own p (xs ++ ys) p' := by
  constructor
  case journal => rw [hy.journal, hx.journal, List.append_assoc]
  case places =>
    intro l text hmem
    rcases List.mem_append.1 hmem with hmem | hmem
    · exact hx.places l text hmem
    · exact hy.places l text hmem
  case outside =>
    intro l hl
    rw [hy.outside l fun text hmem => hl text (List.mem_append_right _ hmem),
      hx.outside l fun text hmem => hl text (List.mem_append_left _ hmem)]
  case inside => exact hy.inside
  case grows => exact hx.grows.trans hy.grows

/-- A plain file that was written. -/
theorem keeping_writeFileAt (habs : directory.isAbsolute = true) (hp : Inside directory d p.host)
    {file : String} (hfile : FileTree.IsName file) (hown : own (d ++ [file]))
    (hdir : p.host.tree.lookup (d ++ [file]) ≠ some .directory) (text : String) :
    Keeping directory d own p [.wroteFile (d ++ [file]) text]
      { p with host := p.host.writeFileAt (d ++ [file]) text } := by
  have htarget := hp.fileTarget habs hfile hdir
  have hgrows := Host.grows_writeFileAt htarget text
  refine ⟨rfl, fun l t hmem => ?_, fun l hl => ?_, hp.of_grows hgrows, hgrows⟩
  · obtain ⟨rfl, -⟩ := Event.wroteFile.inj (List.mem_singleton.1 hmem)
    exact hown
  · have hne : l ≠ d ++ [file] := by
      rintro rfl
      exact hl text List.mem_cons_self
    show (p.host.writeFileAt (d ++ [file]) text).tree.lookup l = _
    rw [Host.lookup_writeFileAt htarget, if_neg hne]

/-- Runs that leave the tree as it is. -/
theorem runAlike_of_host_eq {α : Type} (hp : Inside directory d p.host)
    (hq : Inside directory d q.host) (h : Beside own p q) {r : Except Failure α}
    (hstates : q'.states = p'.states) (hfiles : q'.files = p'.files) (hp' : p'.host = p.host)
    (hq' : q'.host = q.host) : RunAlike directory d own p q (r, p') (r, q') := by
  refine ⟨rfl, ⟨hstates, hfiles, fun l hl => ?_⟩, [], .of_host_eq hp hp', .of_host_eq hq hq'⟩
  show q'.host.tree.lookup l = p'.host.tree.lookup l
  rw [hp', hq', h.lookup l hl]

/-- **A plain deed does the same beside another build.** -/
theorem Deed.runAlike (tools : Tools) (habs : directory.isAbsolute = true) {x : Deed}
    (hx : x.Plain d own) (hp : Inside directory d p.host) (hq : Inside directory d q.host)
    (h : Beside own p q) :
    RunAlike directory d own p q (ExceptT.run (x.perform directory tools) p)
      (ExceptT.run (x.perform directory tools) q) := by
  cases x with
  | enter s =>
    have hstates : q.states ++ [s] = p.states ++ [s] := by rw [h.states]
    exact runAlike_of_host_eq hp hq h hstates h.files rfl rfl
  | ask question => exact runAlike_of_host_eq hp hq h h.states h.files rfl rfl
  | note files =>
    have hfiles : q.files ++ files = p.files ++ files := by rw [h.files]
    exact runAlike_of_host_eq hp hq h h.states hfiles rfl rfl
  | await answer => exact runAlike_of_host_eq hp hq h h.states h.files rfl rfl
  | call c => exact absurd hx id
  | write file text =>
    cases text with
    | error f => exact runAlike_of_host_eq hp hq h h.states h.files rfl rfl
    | ok text =>
      obtain ⟨hfile, hown⟩ := hx
      have hsame := h.lookup (d ++ [file]) hown
      rw [perform, run_act, run_act, hp.run_writeText habs hfile, hq.run_writeText habs hfile,
        hsame]
      by_cases hdir : p.host.tree.lookup (d ++ [file]) = some .directory
      · rw [if_pos hdir, if_pos hdir]
        exact runAlike_of_host_eq hp hq h h.states h.files rfl rfl
      · have hdir' : q.host.tree.lookup (d ++ [file]) ≠ some .directory := by rwa [hsame]
        rw [if_neg hdir, if_neg hdir]
        refine ⟨rfl, ⟨h.states, h.files, fun l hl => ?_⟩, _,
          keeping_writeFileAt habs hp hfile hown hdir text,
          keeping_writeFileAt habs hq hfile hown hdir' text⟩
        show (q.host.writeFileAt (d ++ [file]) text).tree.lookup l =
          (p.host.writeFileAt (d ++ [file]) text).tree.lookup l
        rw [Host.lookup_writeFileAt (hp.fileTarget habs hfile hdir),
          Host.lookup_writeFileAt (hq.fileTarget habs hfile hdir'), FileTree.executableAt,
          FileTree.executableAt, hsame, h.lookup l hl]

/-- **Plain deeds do the same beside another build**, up to the first that fails. -/
theorem runAlike_performAll (tools : Tools) (habs : directory.isAbsolute = true)
    {ds : List Deed} (hds : ∀ x ∈ ds, x.Plain d own) (hp : Inside directory d p.host)
    (hq : Inside directory d q.host) (h : Beside own p q) :
    RunAlike directory d own p q (ExceptT.run (performAll directory tools ds) p)
      (ExceptT.run (performAll directory tools ds) q) := by
  induction ds generalizing p q with
  | nil => exact runAlike_of_host_eq hp hq h h.states h.files rfl rfl
  | cons x ds ih =>
    obtain ⟨hresult, hbeside, xs, hkeep, hkeep'⟩ :=
      Deed.runAlike tools habs (hds x List.mem_cons_self) hp hq h
    rw [performAll, run_bind, run_bind]
    cases hfirst : ExceptT.run (x.perform directory tools) p with
    | mk r p₁ =>
      cases hsecond : ExceptT.run (x.perform directory tools) q with
      | mk r' q₁ =>
        rw [hfirst, hsecond] at hresult hbeside
        rw [hfirst] at hkeep
        rw [hsecond] at hkeep'
        obtain rfl : r' = r := hresult
        cases r' with
        | error f => exact ⟨rfl, hbeside, xs, hkeep, hkeep'⟩
        | ok u =>
          obtain ⟨hr, hlast, ys, hmore, hmore'⟩ := ih
            (fun y hy => hds y (List.mem_cons_of_mem x hy)) hkeep.inside hkeep'.inside hbeside
          exact ⟨hr, hlast, xs ++ ys, hkeep.trans hmore, hkeep'.trans hmore'⟩

end

/-! ### The files of a build -/

/-- The place of a file of a build in the directory at `d`. -/
def Options.Own (o : Options) (d : Location) (l : Location) : Prop :=
  ∃ file ∈ fileNames o.mode o.name o.run, l = d ++ [file]

section

variable {g : Generator} {o o' : Options} {e : Equipment} {h : Host} {p q : Progress}
  {d : Location}

/-- Without the control script the files of a build are its name with the extensions. -/
theorem fileNames_eq (mode : Mode) (name : String) :
    fileNames mode name false = (endings mode false).map fun ext => name ++ ("." ++ ext) := by
  cases mode <;> rfl

theorem plain_of_mem_endings {mode : Mode} {run : Bool} {ext : String}
    (h : ext ∈ endings mode run) : ext ≠ "" ∧ '.' ∉ ext.toList ∧ '/' ∉ ext.toList := by
  revert ext
  cases mode <;> cases run <;> decide

theorem exists_extension (hrun : o.run = false) {file : String}
    (hfile : file ∈ fileNames o.mode o.name o.run) :
    ∃ ext, ext ≠ "" ∧ '.' ∉ ext.toList ∧ '/' ∉ ext.toList ∧ file = o.name ++ ("." ++ ext) := by
  rw [hrun, fileNames_eq] at hfile
  obtain ⟨ext, hext, rfl⟩ := List.mem_map.1 hfile
  obtain ⟨hne, hpoint, hslash⟩ := plain_of_mem_endings hext
  exact ⟨ext, hne, hpoint, hslash, rfl⟩

theorem isName_of_mem (hrun : o.run = false) (hname : '/' ∉ o.name.toList) {file : String}
    (hfile : file ∈ fileNames o.mode o.name o.run) : FileTree.IsName file := by
  obtain ⟨ext, hne, hpoint, hslash, rfl⟩ := exists_extension hrun hfile
  have hending : View.ending (o.name ++ ("." ++ ext)) = some ext.toList :=
    View.Extended.ending ⟨hpoint, hslash, o.name, rfl⟩
  -- what follows the last point of a special name is empty
  have hspecial {s : String} (hs : View.ending s = some []) : o.name ++ ("." ++ ext) ≠ s := by
    intro heq
    rw [heq, hs, Option.some.injEq] at hending
    exact hne (String.toList_eq_nil_iff.1 hending.symm)
  refine ⟨?_, hspecial (by decide), hspecial (by decide), ?_⟩
  · exact hspecial (by decide)
  · rw [String.toList_append, View.toList_point_append]
    simp [hname, hslash]

/-- Builds of different names have no place in common. -/
theorem not_own_of_own (hrun : o.run = false) (hrun' : o'.run = false) (hne : o.name ≠ o'.name)
    {l : Location} (hl : o.Own d l) : ¬ o'.Own d l := by
  rintro ⟨file', hfile', hplace⟩
  obtain ⟨file, hfile, rfl⟩ := hl
  obtain ⟨-, hsame⟩ := List.append_inj' hplace rfl
  obtain rfl : file = file' := by simpa using hsame
  obtain ⟨ext, -, hpoint, hslash, rfl⟩ := exists_extension hrun hfile
  obtain ⟨ext', -, hpoint', hslash', heq⟩ := exists_extension hrun' hfile'
  have hending : View.ending (o.name ++ ("." ++ ext)) = some ext.toList :=
    View.Extended.ending ⟨hpoint, hslash, o.name, rfl⟩
  have hending' : View.ending (o'.name ++ ("." ++ ext')) = some ext'.toList :=
    View.Extended.ending ⟨hpoint', hslash', o'.name, rfl⟩
  rw [heq, hending', Option.some.injEq, String.toList_inj] at hending
  rw [hending] at heq
  exact hne ((String.append_left_inj _).1 heq)

/-- Whoever has a place in a directory is below it. -/
theorem below_of_own {l : Location} (hl : o.Own d l) : d <+: l ∧ l ≠ d := by
  obtain ⟨file, -, rfl⟩ := hl
  exact ⟨List.prefix_append d [file], by simp⟩

theorem plain_of_mem_deeds (ho : o.OnlyGenerates) (hname : '/' ∉ o.name.toList) (d : Location) :
    ∀ x ∈ deeds g o e p, x.Plain d (o.Own d) := by
  intro x hx
  cases x with
  | enter s => trivial
  | ask question => trivial
  | await answer => trivial
  | note files => trivial
  | write file text =>
    have hmem : (file, text) ∈ artifacts g o e p := by
      rw [← filterMap_written?_deeds]
      exact List.mem_filterMap.2 ⟨_, hx, rfl⟩
    have hfile : file ∈ fileNames o.mode o.name o.run := by
      rw [← map_fst_artifacts g o e p]
      exact List.mem_map_of_mem hmem
    exact ⟨isName_of_mem ho.2 hname hfile, file, hfile, rfl⟩
  | call c =>
    have hc : c ∈ (deeds g o e p).filterMap Deed.call? := List.mem_filterMap.2 ⟨_, hx, rfl⟩
    rw [filterMap_call?_deeds, calls_eq_nil ho] at hc
    cases hc

/-- Only the open synthesizer is a program that has to be found. -/
theorem body_congr (ho : o.OnlyGenerates) (program program' : Path)
    (r : Except Failure Generated) : body o program r = body o program' r := by
  rw [body, body, projectDeeds, projectDeeds]
  rcases ho.1 with hmode | hmode
  · rw [if_pos hmode, if_pos hmode]
  · have hv : ¬ o.mode.usesVerilog = true := by
      rw [hmode]
      decide
    rw [if_neg hv, if_neg hv]

/-- The deeds of a build that only generates depend on the answer of its design. -/
theorem deeds_congr (ho : o.OnlyGenerates)
    (hanswer : answer g o e q.host.toView = answer g o e p.host.toView) :
    deeds g o e q = deeds g o e p := by
  have hdesign : design g o e q = design g o e p := by
    rw [design_eq ho, design_eq ho, hanswer]
  have hrun : ¬ o.run = true := by simp [ho.2]
  rw [deeds, deeds, if_neg hrun, if_neg hrun, generating, generating, hdesign,
    body_congr ho (Action.yosysProgram q.host) (Action.yosysProgram p.host)]

/-- **A build does the same beside another one.** -/
theorem stages_beside (ho : o.OnlyGenerates) (hname : '/' ∉ o.name.toList)
    (habs : o.directory.isAbsolute = true) (hp : Inside o.directory d p.host)
    (hq : Inside o.directory d q.host) (h : Beside (o.Own d) p q)
    (hanswer : answer g o e q.host.toView = answer g o e p.host.toView) :
    RunAlike o.directory d (o.Own d) p q (ExceptT.run (stages g o e) p)
      (ExceptT.run (stages g o e) q) := by
  rw [run_stages, run_stages, deeds_congr ho hanswer]
  have halike := runAlike_performAll e.tools habs
    (plain_of_mem_deeds (g := g) (e := e) (p := p) ho hname d) hp hq h
  cases hfirst : ExceptT.run (performAll o.directory e.tools (deeds g o e p)) p with
  | mk r p₁ =>
    cases hsecond : ExceptT.run (performAll o.directory e.tools (deeds g o e p)) q with
    | mk r' q₁ =>
      rw [hfirst, hsecond] at halike
      obtain ⟨hresult, hrest⟩ := halike
      obtain rfl : r' = r := hresult
      cases r' with
      | ok u => exact ⟨rfl, hrest⟩
      | error f => exact ⟨rfl, hrest⟩

/-! ### Going into the directory -/

theorem inside_of_entered (habs : o.directory.isAbsolute = true) (hp : Entered o h p) :
    Inside o.directory p.host.directory p.host := by
  obtain ⟨-, hwalk, -⟩ := View.resolve_eq_ok_iff.1 hp.resolve
  rw [View.start_eq_nil habs] at hwalk
  exact ⟨hp.target, hwalk⟩

theorem Inside.resolve (habs : o.directory.isAbsolute = true) (hin : Inside o.directory d h) :
    h.resolve o.directory = .ok d := by
  refine View.resolve_eq_ok_iff.2
    ⟨Path.text_ne_empty_of_isAbsolute habs, ?_, fun _ => hin.there⟩
  rw [View.start_eq_nil habs]
  exact hin.leads

/-- A build goes into a directory that is there. -/
theorem enterDirectory_of_inside (habs : o.directory.isAbsolute = true)
    (hin : Inside o.directory d h) :
    ExceptT.run (enterDirectory o) (Progress.start h) =
      (.ok (), ⟨{ h with directory := d }, [.changeDirectory], [], []⟩) := by
  have hexists : h.exists_ o.directory = true :=
    View.exists_iff.2 ⟨d, _, hin.resolve habs, hin.there⟩
  have henter : h.toView.enter o.directory = .ok ⟨h.tree, d⟩ :=
    enter_eq_ok_iff.2 ⟨d, hin.resolve habs, hin.there, rfl⟩
  rw [run_enterDirectory_eq, Action.run_ensureDirectory_of_exists hexists]
  dsimp only
  rw [run_enter_of_ok henter]

end

end Build

end FpgaFlow
