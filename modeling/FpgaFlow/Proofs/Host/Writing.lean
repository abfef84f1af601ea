import FpgaFlow.Host
import FpgaFlow.Proofs.Tree.Target

/-!
# What an action leaves behind

Everything that is done to a host is in its journal: `Host.Did` says that the
journal got longer by some events, and that the tree is what these events make of
the tree that was there before.

Writing a file makes directories on the way of its path, and only there, and then
writes one file or none (`Action.run_writeText`).  Running a program is one event
(`Action.run_runSuccessfully`).
-/

namespace FpgaFlow

/-- Whether a file at a location of a tree may be executed. -/
def FileTree.executableAt (t : FileTree) (l : Location) : Bool :=
  match t.lookup l with
  | some (.file _ executable) => executable
  | _ => false

/-- What an event makes of a tree. -/
def Event.apply (tools : Tools) (t : FileTree) : Event → FileTree
  | .madeDirectory l => t.put l .directory
  | .wroteFile l text => t.put l (.file (.text text) (t.executableAt l))
  | .ranTool call _ _ => (tools call t).1

namespace Host

/-- The journal got longer by these events, which explain the tree; all else stayed. -/
structure Did (tools : Tools) (h : Host) (events : List Event) (h' : Host) : Prop where
  journal : h'.journal = h.journal ++ events
  tree : h'.tree = events.foldl (Event.apply tools) h.tree
  directory : h'.directory = h.directory
  environment : h'.environment = h.environment

theorem Did.refl (tools : Tools) (h : Host) : h.Did tools [] h :=
  ⟨(List.append_nil _).symm, rfl, rfl, rfl⟩

theorem Did.trans {tools : Tools} {h h₁ h₂ : Host} {xs ys : List Event}
    (hx : h.Did tools xs h₁) (hy : h₁.Did tools ys h₂) : h.Did tools (xs ++ ys) h₂ := by
  refine ⟨?_, ?_, hy.directory.trans hx.directory, hy.environment.trans hx.environment⟩
  · rw [hy.journal, hx.journal, List.append_assoc]
  · rw [hy.tree, hx.tree, List.foldl_append]

theorem Did.start_eq {tools : Tools} {h h' : Host} {events : List Event}
    (hd : h.Did tools events h') (p : Path) : h'.toView.start p = h.toView.start p := by
  rw [View.start, View.start, hd.directory]

/-! ### Making directories -/

theorem makeDirectory_eq_ok_iff {h h' : Host} {p : Path} :
    h.makeDirectory p = .ok h' ↔
      ∃ l, h.directoryTarget p = .ok l ∧ h' = h.makeDirectoryAt l := by
  rw [makeDirectory]
  cases h.directoryTarget p with
  | error e => simp [Except.map]
  | ok l => simp [Except.map, eq_comm]

theorem did_makeDirectoryAt (tools : Tools) (h : Host) (l : Location) :
    h.Did tools [.madeDirectory l] (h.makeDirectoryAt l) :=
  ⟨rfl, rfl, rfl, rfl⟩

/-- Directories are made one after the other, each at the end of one of the paths. -/
inductive Makes (ps : List Path) : Host → Host → Prop
  | refl (h : Host) : Makes ps h h
  | step {h h₁ h₂ : Host} {p : Path} : Makes ps h h₁ → p ∈ ps → h₁.makeDirectory p = .ok h₂ →
      Makes ps h h₂

theorem Makes.mono {ps qs : List Path} (hpq : ps ⊆ qs) {h h' : Host} (hm : Makes ps h h') :
    Makes qs h h' := by
  induction hm with
  | refl => exact .refl _
  | step _ hp hmake ih => exact .step ih (hpq hp) hmake

theorem Makes.did {ps : List Path} (tools : Tools) {h h' : Host} (hm : Makes ps h h') :
    ∃ ls : List Location, h.Did tools (ls.map .madeDirectory) h' := by
  induction hm with
  | refl => exact ⟨[], Did.refl tools h⟩
  | step _ _ hmake ih =>
    obtain ⟨ls, hls⟩ := ih
    obtain ⟨l, -, rfl⟩ := makeDirectory_eq_ok_iff.1 hmake
    refine ⟨ls ++ [l], ?_⟩
    rw [List.map_append]
    exact hls.trans (did_makeDirectoryAt tools _ l)

theorem grows_makeDirectoryAt {h : Host} {p : Path} {l : Location}
    (hl : h.directoryTarget p = .ok l) : h.tree.Grows (h.makeDirectoryAt l).tree := by
  obtain ⟨_, _, -, -, hnone⟩ := View.directoryTarget_eq_ok_iff.1 hl
  refine FileTree.grows_put fun f hf => ?_
  rw [hnone] at hf
  cases hf

theorem Makes.grows {ps : List Path} {h h' : Host} (hm : Makes ps h h') :
    h.tree.Grows h'.tree := by
  induction hm with
  | refl => exact FileTree.Grows.refl _
  | step _ _ hmake ih =>
    obtain ⟨l, hl, rfl⟩ := makeDirectory_eq_ok_iff.1 hmake
    exact ih.trans (grows_makeDirectoryAt hl)

/-- **Directories are made on the way of a path** when the paths of the directories are the
beginnings of that path. -/
theorem Makes.changed {ps : List Path} {p : Path} (hp : p.isAbsolute = true)
    (hps : ∀ q ∈ ps, q.steps <+: p.steps ∧ q.isAbsolute = true) {h h' : Host}
    (hm : Makes ps h h') (F : Location → Prop) : h.tree.Changed h'.tree F (h'.Passes p) := by
  induction hm with
  | refl => exact FileTree.Changed.refl _ _ _
  | @step h₁ h₂ q _ hq hmake ih =>
    obtain ⟨l, hl, rfl⟩ := makeDirectory_eq_ok_iff.1 hmake
    have hgrows := grows_makeDirectoryAt hl
    have hsame (w : View) : w.start p = h₁.toView.start p := by
      rw [View.start_eq_nil hp, View.start_eq_nil hp]
    refine (ih.mono (fun _ => id) fun m hpass => ?_).trans ?_
    · exact hpass.of_grows hgrows (hsame _)
    · obtain ⟨d, name, hparent, rfl, hnone⟩ := View.directoryTarget_eq_ok_iff.1 hl
      have haccept := View.accepts_of_directoryTarget hl
      refine (FileTree.changed_put_directory haccept hnone F).mono (fun _ => id) ?_
      rintro m rfl
      obtain ⟨hsteps, habs⟩ := hps q hq
      refine ⟨q.steps, hsteps, ?_⟩
      have hwalk := View.walk_of_parentTarget hparent
      rw [View.start_eq_nil habs] at hwalk
      rw [View.start_eq_nil hp]
      exact View.walk_of_grows hgrows hwalk

/-- Missing parents are made as far as it goes. -/
theorem makes_makeDirectories (ps : List Path) (h : Host) :
    Makes ps h (h.makeDirectories ps).1 := by
  induction ps with
  | nil => exact .refl h
  | cons p parents ih =>
    rw [makeDirectories]
    split
    next => exact .refl h
    next =>
      split
      next made hmade => exact .step (.refl h) List.mem_cons_self hmade
      next hmissing =>
        have hbelow := ih.mono (List.subset_cons_self p parents)
        split
        next below hp =>
          rw [hp] at hbelow
          split
          next made hmade => exact .step hbelow List.mem_cons_self hmade
          next => exact hbelow
        next below e hp =>
          rw [hp] at hbelow
          exact hbelow
      next => exact .refl h

/-! ### Writing files -/

theorem writeFile_eq_ok_iff {h h' : Host} {p : Path} {text : String} :
    h.writeFile p text = .ok h' ↔ ∃ l, h.fileTarget p = .ok l ∧ h' = h.writeFileAt l text := by
  rw [writeFile]
  cases h.fileTarget p with
  | error e => simp [Except.map]
  | ok l => simp [Except.map, eq_comm]

theorem did_writeFileAt (tools : Tools) (h : Host) (l : Location) (text : String) :
    h.Did tools [.wroteFile l text] (h.writeFileAt l text) :=
  ⟨rfl, rfl, rfl, rfl⟩

theorem grows_writeFileAt {h : Host} {p : Path} {l : Location} (hl : h.fileTarget p = .ok l)
    (text : String) : h.tree.Grows (h.writeFileAt l text).tree := by
  obtain ⟨_, _, -, -, -, hnot⟩ := View.fileTarget_eq_ok_iff.1 hl
  refine FileTree.grows_put fun f hf => ?_
  cases f with
  | directory => exact absurd hf hnot
  | file c x => simp [Entry.kind, hf]

theorem lookup_writeFileAt {h : Host} {p : Path} {l : Location} (hl : h.fileTarget p = .ok l)
    (text : String) (m : Location) : (h.writeFileAt l text).tree.lookup m =
      if m = l then some (.file (.text text) (h.tree.executableAt l)) else h.tree.lookup m :=
  FileTree.lookup_put (View.accepts_of_fileTarget hl) _ m

theorem holds_writeFileAt {h : Host} {p : Path} {l : Location} (hl : h.fileTarget p = .ok l)
    (text : String) : (h.writeFileAt l text).Holds p text := by
  have hlook := lookup_writeFileAt hl text l
  rw [if_pos rfl] at hlook
  refine ⟨l, _, View.fileTarget_of_grows (grows_writeFileAt hl text) rfl hl ?_, hlook⟩
  rw [hlook]
  simp

/-- A text that a file holds already changes nothing. -/
theorem tree_writeFileAt_of_holds {h : Host} {p : Path} {text : String} (hp : h.Holds p text)
    {l : Location} (hl : h.fileTarget p = .ok l) : (h.writeFileAt l text).tree = h.tree := by
  obtain ⟨l', x, hl', he⟩ := hp
  rw [hl, Except.ok.injEq] at hl'
  subst hl'
  refine FileTree.ext_lookup fun m => ?_
  rw [lookup_writeFileAt hl]
  split
  next hm => rw [hm, he, FileTree.executableAt, he]
  next => rfl

/-- A call of a program from the working directory. -/
def callOf (h : Host) (program : Path) (arguments : List String) : Invocation :=
  ⟨program, arguments, h.directory⟩

theorem did_runTool (tools : Tools) (h : Host) (program : Path) (arguments : List String) :
    h.Did tools [.ranTool (h.callOf program arguments) (h.tree.fileNames h.directory)
      (tools (h.callOf program arguments) h.tree).2] (h.runTool tools program arguments).1 :=
  ⟨rfl, rfl, rfl, rfl⟩

end Host

/-! ### Actions -/

/-- What is run after another part starts from the state that the first part left. -/
theorem run_bind {σ α β : Type} (a : ExceptT Failure (StateM σ) α)
    (f : α → ExceptT Failure (StateM σ) β) (s : σ) :
    ExceptT.run (a >>= f) s = match ExceptT.run a s with
      | (.ok x, s') => ExceptT.run (f x) s'
      | (.error e, s') => (.error e, s') := by
  show ExceptT.bindCont f (ExceptT.run a s).1 (ExceptT.run a s).2 = _
  cases ExceptT.run a s with
  | mk r s' =>
    cases r with
    | ok x => rfl
    | error e => rfl

namespace Action

theorem run_change {α : Type} (f : Host → Host × Except Failure α) (h : Host) :
    ExceptT.run (change f) h = ((f h).2, (f h).1) := rfl

/-- The paths of the directories that a write through a path makes when they are missing. -/
def directoriesAbove (p : Path) : List Path :=
  match p.parent? with
  | some parent => if parent.text = "" then [] else parent.ancestors
  | none => []

theorem of_mem_directoriesAbove {p q : Path} (hp : p.isAbsolute = true)
    (h : q ∈ directoriesAbove p) : q.steps <+: p.steps ∧ q.isAbsolute = true := by
  rw [directoriesAbove] at h
  split at h
  next parent hparent =>
    split at h
    next => cases h
    next =>
      obtain ⟨hsteps, habs⟩ := Path.of_mem_ancestors h
      exact ⟨hsteps.trans (Path.steps_parent? hparent),
        habs (Path.isAbsolute_of_parent? hparent hp)⟩
  next => cases h

theorem makes_ensureDirectory (p : Path) (h : Host) :
    h.Makes p.ancestors (ExceptT.run (ensureDirectory p) h).2 := by
  rw [ensureDirectory, run_change]
  split
  next => exact .refl h
  next => exact Host.makes_makeDirectories p.ancestors h

theorem run_ensureDirectory_of_exists {p : Path} {h : Host} (hp : h.exists_ p = true) :
    ExceptT.run (ensureDirectory p) h = (.ok (), h) := by
  rw [ensureDirectory, run_change, if_pos hp]

theorem run_writeHere (p : Path) (text : String) (h : Host) :
    (∃ written, h.writeFile p text = .ok written ∧
        ExceptT.run (writeHere p text) h = (.ok (), written)) ∨
      ∃ f, ExceptT.run (writeHere p text) h = (.error f, h) := by
  rw [writeHere, run_change]
  cases h.writeFile p text with
  | ok written => exact .inl ⟨written, rfl, rfl⟩
  | error e => exact .inr ⟨_, rfl⟩

/-- Writing makes directories above the file and then writes the file, or fails. -/
theorem run_writeText (p : Path) (text : String) (h : Host) :
    ∃ made, h.Makes (directoriesAbove p) made ∧
      ((∃ written, made.writeFile p text = .ok written ∧
          ExceptT.run (writeText p text) h = (.ok (), written)) ∨
        ∃ f, ExceptT.run (writeText p text) h = (.error f, made)) := by
  rw [writeText, directoriesAbove]
  cases p.parent? with
  | none => exact ⟨h, .refl h, run_writeHere p text h⟩
  | some parent =>
    by_cases ht : parent.text = ""
    · simp only [if_pos ht]
      exact ⟨h, .refl h, run_writeHere p text h⟩
    · simp only [if_neg ht]
      have hmade := makes_ensureDirectory parent h
      rw [run_bind]
      cases hrun : ExceptT.run (ensureDirectory parent) h with
      | mk r made =>
        rw [hrun] at hmade
        cases r with
        | ok u => exact ⟨made, hmade, run_writeHere p text made⟩
        | error f => exact ⟨made, hmade, .inr ⟨f, rfl⟩⟩

theorem cause_of_writeHere {p : Path} {text : String} {h h' : Host} {f : Failure}
    (hrun : ExceptT.run (writeHere p text) h = (.error f, h')) : ∃ e, f.cause = .io e := by
  rw [writeHere, run_change] at hrun
  cases hwrite : h.writeFile p text with
  | ok written =>
    rw [hwrite] at hrun
    cases (Prod.mk.inj hrun).1
  | error e =>
    rw [hwrite] at hrun
    rw [← Except.error.inj (Prod.mk.inj hrun).1]
    exact ⟨e, rfl⟩

theorem cause_of_ensureDirectory {p : Path} {h h' : Host} {f : Failure}
    (hrun : ExceptT.run (ensureDirectory p) h = (.error f, h')) : ∃ e, f.cause = .io e := by
  rw [ensureDirectory, run_change] at hrun
  split at hrun
  next => cases (Prod.mk.inj hrun).1
  next =>
    have hmade := (Prod.mk.inj hrun).1
    dsimp only at hmade
    cases hr : (h.makeDirectories p.ancestors).2 with
    | ok u =>
      rw [hr] at hmade
      cases hmade
    | error e =>
      rw [hr] at hmade
      rw [← Except.error.inj hmade]
      exact ⟨e, rfl⟩

/-- **A write only fails for what is wrong with a file or a directory.** -/
theorem cause_of_writeText {p : Path} {text : String} {h h' : Host} {f : Failure}
    (hrun : ExceptT.run (writeText p text) h = (.error f, h')) : ∃ e, f.cause = .io e := by
  rw [writeText] at hrun
  cases hparent : p.parent? with
  | none =>
    rw [hparent] at hrun
    exact cause_of_writeHere hrun
  | some parent =>
    simp only [hparent] at hrun
    split at hrun
    next => exact cause_of_writeHere hrun
    next =>
      rw [run_bind] at hrun
      cases hmake : ExceptT.run (ensureDirectory parent) h with
      | mk r made =>
        rw [hmake] at hrun
        cases r with
        | ok u => exact cause_of_writeHere hrun
        | error f' =>
          obtain rfl := Except.error.inj (Prod.mk.inj hrun).1
          exact cause_of_ensureDirectory hmake

/-- The directory above the end of a path is there. -/
theorem exists_parent_of_parentTarget {v : View} {p parent : Path} (hp : p.isAbsolute = true)
    {d : Location} {name : String} (htarget : v.parentTarget p = .ok (d, some name))
    (hparent : p.parent? = some parent) : v.exists_ parent = true := by
  obtain ⟨way, hway, hname, hwalk, hd⟩ := View.parentTarget_eq_ok_iff.1 htarget
  have habs := Path.isAbsolute_of_parent? hparent hp
  have ht := Path.text_ne_empty_of_isAbsolute habs
  have hprefix := Path.steps_parent?_of_concat hparent ht hway hname.2.1
  rw [View.start_eq_nil hp] at hwalk
  obtain ⟨m, hm, hdir⟩ := View.walk_beginning hwalk hd hprefix
  refine View.exists_iff.2 ⟨m, .directory, View.resolve_eq_ok_iff.2 ⟨ht, ?_, fun _ => hdir⟩, hdir⟩
  rw [View.start_eq_nil habs]
  exact hm

/-- **In a directory that is there a write makes no other.** -/
theorem run_writeText_of_parentTarget {p : Path} (hp : p.isAbsolute = true) {h : Host}
    {d : Location} {name : String} (htarget : h.parentTarget p = .ok (d, some name))
    (text : String) : ExceptT.run (writeText p text) h = ExceptT.run (writeHere p text) h := by
  rw [writeText]
  cases hparent : p.parent? with
  | none => rfl
  | some parent =>
    by_cases ht : parent.text = ""
    · simp only [if_pos ht]
    · simp only [if_neg ht]
      have hexists := exists_parent_of_parentTarget hp htarget hparent
      rw [run_bind, run_ensureDirectory_of_exists hexists]

/-- **Writing to a file that is there writes that file and nothing else.** -/
theorem run_writeText_of_fileTarget {p : Path} (hp : p.isAbsolute = true) {h : Host}
    {l : Location} (hl : h.fileTarget p = .ok l) (text : String) :
    ExceptT.run (writeText p text) h = (.ok (), h.writeFileAt l text) := by
  obtain ⟨_, _, htarget, -⟩ := View.fileTarget_eq_ok_iff.1 hl
  rw [run_writeText_of_parentTarget hp htarget, writeHere, run_change,
    Host.writeFile_eq_ok_iff.2 ⟨l, hl, rfl⟩]

end Action

/-- What a step of a build makes of the end of its program. -/
def Tool.verdict (tool : Tool) : Outcome → Except Failure Unit
  | .ok code =>
    if code = some 0 then .ok () else .error (Failure.of (.fault (.toolFailed tool code)))
  | .error f => .error f

theorem Tool.verdict_eq_ok_iff {tool : Tool} {o : Outcome} :
    tool.verdict o = .ok () ↔ o = .ok (some 0) := by
  cases o with
  | error f => simp [verdict]
  | ok code =>
    rw [verdict]
    split
    next h => simp [h]
    next h => simp [h]

/-- **Running a program is one event, and how it ends decides.** -/
theorem Action.run_runSuccessfully (tools : Tools) (tool : Tool) (program : Path)
    (arguments : List String) (h : Host) :
    ExceptT.run (runSuccessfully tools tool program arguments) h =
      (tool.verdict (tools (h.callOf program arguments) h.tree).2,
        (h.runTool tools program arguments).1) := by
  have hrun : ExceptT.run (runTool tools program arguments) h =
      ((tools (h.callOf program arguments) h.tree).2, (h.runTool tools program arguments).1) := rfl
  rw [runSuccessfully, run_bind, hrun]
  cases (tools (h.callOf program arguments) h.tree).2 with
  | error f => rfl
  | ok code =>
    simp only [Tool.verdict]
    split
    next => rfl
    next => rfl

end FpgaFlow
