import FpgaFlow.Proofs.Build.Frame

/-!
# What a build writes

With tools that write nothing, a build changes the tree at its own files, and it
makes directories on the way to them, and that is all (`Spreads`).  In the end each
file holds the text that was made for it.

**Main statement** `run_leaves`: this holds of every build, and of one that fails
with a beginning of its files.
-/

namespace FpgaFlow

/-- Tools that leave every tree as it is. -/
def Idle (tools : Tools) : Prop :=
  ∀ call t, (tools call t).1 = t

theorem Idle.keeps {tools : Tools} (h : Idle tools) (l : Location) : Keeps tools l := by
  intro call t
  rw [h call t]

namespace Build

/-- The names of the files of a build in the order in which they are written. -/
def fileNames (mode : Mode) (name : String) (run : Bool) : List String :=
  (match mode with
    | .xst => [name ++ ".v", name ++ ".prj", name ++ ".xst"]
    | .yosys => [name ++ ".v", name ++ ".ys"]
    | .edif | .mist => [name ++ ".edif"]) ++
  (name ++ ".ucf") :: if run then ["build_" ++ name ++ ".sh"] else []

/-- The tree grew by the files `written`, and by directories on the way to the files `all`. -/
structure Spreads (directory : Path) (written all : List (String × Except Failure String))
    (h h' : Host) : Prop where
  grows : h.tree.Grows h'.tree
  changed : h.tree.Changed h'.tree
    (fun l => ∃ w ∈ written, h'.resolve (directory.child w.1) = .ok l)
    (fun l => ∃ w ∈ all, h'.Passes (directory.child w.1) l)

section

variable {directory : Path} {tools : Tools} {p p' : Progress} {ds : List Deed}
  {written written' all : List (String × Except Failure String)} {h h₁ h' : Host}

theorem start_child (habs : directory.isAbsolute = true) (file : String) (v w : View) :
    w.start (directory.child file) = v.start (directory.child file) := by
  have hchild := Path.isAbsolute_child habs file
  rw [View.start_eq_nil hchild, View.start_eq_nil hchild]

theorem Spreads.of_tree_eq (directory : Path) (all : List (String × Except Failure String))
    (htree : h'.tree = h.tree) : Spreads directory [] all h h' := by
  refine ⟨?_, fun l => .inl ?_⟩
  · rw [htree]
    exact FileTree.Grows.refl h.tree
  · rw [htree]

theorem Spreads.trans (habs : directory.isAbsolute = true) (hx : Spreads directory written all h h₁)
    (hy : Spreads directory written' all h₁ h') :
    Spreads directory (written ++ written') all h h' := by
  refine ⟨hx.grows.trans hy.grows, (hx.changed.mono ?_ ?_).trans (hy.changed.mono ?_ fun _ => id)⟩
  · rintro l ⟨w, hw, hl⟩
    exact ⟨w, List.mem_append_left _ hw,
      View.resolve_of_grows hy.grows (start_child habs w.1 _ _) hl⟩
  · rintro l ⟨w, hw, hl⟩
    exact ⟨w, hw, hl.of_grows hy.grows (start_child habs w.1 _ _)⟩
  · rintro l ⟨w, hw, hl⟩
    exact ⟨w, List.mem_append_right _ hw, hl⟩

theorem spreads_of_makes (habs : directory.isAbsolute = true)
    {w : String × Except Failure String} (hw : w ∈ all)
    (hm : h.Makes (Action.directoriesAbove (directory.child w.1)) h') :
    Spreads directory [] all h h' := by
  have hchild := Path.isAbsolute_child habs w.1
  have hchanged := hm.changed hchild (fun _ hq => Action.of_mem_directoriesAbove hchild hq)
  refine ⟨hm.grows, (hchanged fun _ => False).mono (fun _ => False.elim) fun l hl => ?_⟩
  exact ⟨w, hw, hl⟩

theorem spreads_writeFileAt {w : String × Except Failure String} {l : Location}
    (hl : h.fileTarget (directory.child w.1) = .ok l) (text : String) :
    Spreads directory [w] all h (h.writeFileAt l text) := by
  have hgrows := Host.grows_writeFileAt hl text
  refine ⟨hgrows, (FileTree.changed_put l _ _).mono ?_ fun _ => id⟩
  rintro m rfl
  have hresolve := View.resolve_of_fileTarget hl
  exact ⟨w, List.mem_singleton_self w, View.resolve_of_grows hgrows rfl hresolve⟩

/-- **A deed that succeeds spreads over its own file**, when the tools write nothing. -/
theorem Deed.spreads (habs : directory.isAbsolute = true) (hidle : Idle tools) {d : Deed}
    (hd : ExceptT.run (d.perform directory tools) p = (.ok (), p'))
    (hall : ∀ w ∈ d.written?, w ∈ all) :
    Spreads directory d.written?.toList all p.host p'.host := by
  cases d with
  | enter s =>
    obtain ⟨-, rfl⟩ := Prod.mk.inj hd
    exact .of_tree_eq directory all rfl
  | ask q =>
    obtain ⟨-, rfl⟩ := Prod.mk.inj hd
    exact .of_tree_eq directory all rfl
  | await answer =>
    obtain ⟨-, rfl⟩ := Prod.mk.inj hd
    exact .of_tree_eq directory all rfl
  | note files =>
    obtain ⟨-, rfl⟩ := Prod.mk.inj hd
    exact .of_tree_eq directory all rfl
  | write file text =>
    rcases Deed.write_cases hd with
      ⟨_, -, hr, -⟩ | ⟨t, made, rfl, hmakes, ⟨l, hl, -, rfl⟩ | ⟨_, hr, -⟩⟩
    · cases hr
    · have hmade : Spreads directory [] all p.host made :=
        spreads_of_makes habs (hall (file, .ok t) rfl) hmakes
      have hlast : Spreads directory [(file, .ok t)] all made (made.writeFileAt l t) :=
        spreads_writeFileAt (w := (file, .ok t)) hl t
      exact hmade.trans habs hlast
    · cases hr
  | call c =>
    rw [perform, run_act, Action.run_runSuccessfully] at hd
    obtain ⟨-, rfl⟩ := Prod.mk.inj hd
    exact .of_tree_eq directory all (hidle _ _)

theorem Deed.spreads_of_error (habs : directory.isAbsolute = true) (hidle : Idle tools) {d : Deed}
    {f : Failure} (hd : ExceptT.run (d.perform directory tools) p = (.error f, p'))
    (hall : ∀ w ∈ d.written?, w ∈ all) : Spreads directory [] all p.host p'.host := by
  cases d with
  | enter s => cases (Prod.mk.inj hd).1
  | ask q => cases (Prod.mk.inj hd).1
  | note files => cases (Prod.mk.inj hd).1
  | await answer =>
    obtain ⟨-, rfl⟩ := Prod.mk.inj hd
    exact .of_tree_eq directory all rfl
  | write file text =>
    rcases Deed.write_cases hd with
      ⟨_, -, -, rfl⟩ | ⟨_, made, -, hmakes, ⟨_, _, hr, -⟩ | ⟨_, -, rfl⟩⟩
    · exact .of_tree_eq directory all rfl
    · cases hr
    · exact spreads_of_makes habs (hall (file, _) rfl) hmakes
  | call c =>
    rw [perform, run_act, Action.run_runSuccessfully] at hd
    obtain ⟨-, rfl⟩ := Prod.mk.inj hd
    exact .of_tree_eq directory all (hidle _ _)

theorem Performs.spreads (habs : directory.isAbsolute = true) (hidle : Idle tools)
    (hp : Performs directory tools p ds p') (hall : ds.filterMap Deed.written? ⊆ all) :
    Spreads directory (ds.filterMap Deed.written?) all p.host p'.host := by
  induction hp with
  | nil => exact .of_tree_eq directory all rfl
  | @cons p p₁ p' d ds hd _ ih =>
    rw [← List.singleton_append, List.filterMap_append] at hall ⊢
    have hfirst := Deed.spreads habs hidle hd fun w hw =>
      hall (List.mem_append_left _ (List.mem_filterMap.2 ⟨d, List.mem_singleton_self d, hw⟩))
    have hone : [d].filterMap Deed.written? = d.written?.toList := by
      cases hw : d.written? <;> simp [hw]
    rw [hone]
    exact hfirst.trans habs (ih fun w hw => hall (List.mem_append_right _ hw))

/-- What a deed wrote its file holds. -/
theorem Deed.holds {d : Deed} (hd : ExceptT.run (d.perform directory tools) p = (.ok (), p'))
    {w : String × Except Failure String} (hw : w ∈ d.written?) :
    ∃ text, w.2 = .ok text ∧ p'.host.Holds (directory.child w.1) text := by
  cases d with
  | write file text =>
    obtain rfl := Option.some.inj hw
    rcases Deed.write_cases hd with
      ⟨_, -, hr, -⟩ | ⟨t, made, rfl, -, ⟨l, hl, -, rfl⟩ | ⟨_, hr, -⟩⟩
    · cases hr
    · exact ⟨t, rfl, Host.holds_writeFileAt hl t⟩
    · cases hr
  | enter s => cases hw
  | ask q => cases hw
  | await answer => cases hw
  | note files => cases hw
  | call c => cases hw

/-- **Files that are apart hold in the end what was written to them.** -/
theorem Performs.holds (habs : directory.isAbsolute = true) (hidle : Idle tools)
    (hp : Performs directory tools p ds p')
    (hapart : (ds.filterMap Deed.written?).Pairwise (Apart directory))
    {w : String × Except Failure String} (hw : w ∈ ds.filterMap Deed.written?) :
    ∃ text, w.2 = .ok text ∧ p'.host.Holds (directory.child w.1) text := by
  induction hp with
  | nil => cases hw
  | @cons p p₁ p' d ds hd hds ih =>
    obtain ⟨d', hd', hw'⟩ := List.mem_filterMap.1 hw
    have hsub : (ds.filterMap Deed.written?).Sublist ((d :: ds).filterMap Deed.written?) :=
      (List.sublist_cons_self d ds).filterMap _
    rcases List.mem_cons.1 hd' with rfl | hd'
    · obtain ⟨text, htext, hholds⟩ := Deed.holds hd hw'
      have hgrows := (hds.spreads habs hidle (List.Subset.refl _)).grows
      rw [List.filterMap_cons_some hw'] at hapart
      refine ⟨text, htext, hholds.of_grows hgrows (start_child habs w.1 _ _) fun l hl => ?_⟩
      obtain ⟨l', x, hl', hx⟩ := hholds
      obtain rfl : l' = l := Except.ok.inj (hl'.symm.trans hl)
      rw [hx]
      exact hds.keeps hx (hidle.keeps l') fun u hu =>
        (List.pairwise_cons.1 hapart).1 u hu p₁.host.toView l' hl
    · exact ih (hapart.sublist hsub) (List.mem_filterMap.2 ⟨d', hd', hw'⟩)

theorem Fails.spreads (habs : directory.isAbsolute = true) (hidle : Idle tools)
    {done : List Deed} {d : Deed} {f : Failure} (hfails : Fails directory tools p done d f p')
    (hdone : done.filterMap Deed.written? ⊆ all) (hd : ∀ w ∈ d.written?, w ∈ all) :
    Spreads directory (done.filterMap Deed.written?) all p.host p'.host := by
  obtain ⟨p₁, hperforms, hfail⟩ := hfails
  have hboth := (hperforms.spreads habs hidle hdone).trans habs
    (Deed.spreads_of_error habs hidle hfail hd)
  rw [List.append_nil] at hboth
  exact hboth

theorem Fails.holds (habs : directory.isAbsolute = true) (hidle : Idle tools)
    {done : List Deed} {d : Deed} {f : Failure} (hfails : Fails directory tools p done d f p')
    (hapart : (done.filterMap Deed.written?).Pairwise (Apart directory))
    (hd : ∀ w ∈ d.written?, w ∈ all)
    {w : String × Except Failure String} (hw : w ∈ done.filterMap Deed.written?) :
    ∃ text, w.2 = .ok text ∧ p'.host.Holds (directory.child w.1) text := by
  obtain ⟨p₁, hperforms, hfail⟩ := hfails
  obtain ⟨text, htext, hholds⟩ := hperforms.holds habs hidle hapart hw
  have hgrows := (Deed.spreads_of_error habs hidle hfail hd).grows
  refine ⟨text, htext, hholds.of_grows hgrows (start_child habs w.1 _ _) fun l hl => ?_⟩
  obtain ⟨l', x, hl', hx⟩ := hholds
  obtain rfl : l' = l := Except.ok.inj (hl'.symm.trans hl)
  rw [hx]
  exact Deed.keeps hfail hx (hidle.keeps l') fun hr => by cases hr

end

/-! ### Whole builds -/

/-- What a build leaves that has written the files `written`, and was to write `all`. -/
structure Leaves (directory : Path) (h : Host) (all written : List (String × Except Failure String))
    (p' : Progress) : Prop where
  journal : ∃ events, p'.host.journal = h.journal ++ events ∧
    List.Forall₂ (Leads directory) written (events.filterMap Event.written?)
  holds : ∀ w ∈ written, ∃ text, w.2 = .ok text ∧
    p'.host.read (directory.child w.1) = .ok text
  changed : h.tree.Changed p'.host.tree
    (fun l => ∃ w ∈ written, p'.host.resolve (directory.child w.1) = .ok l)
    (fun l => p'.host.Passes directory l ∨ ∃ w ∈ all, p'.host.Passes (directory.child w.1) l)

section

variable {g : Generator} {o : Options} {e : Equipment} {h : Host} {p p' : Progress}

theorem grows_leave (p : Progress) (l : Location) : p.host.tree.Grows (p.leave l).host.tree := by
  rw [tree_leave]
  exact FileTree.Grows.refl _

theorem changed_of_entered (habs : o.directory.isAbsolute = true) (hp : Entered o h p)
    (F : Location → Prop) : h.tree.Changed p.host.tree F (p.host.Passes o.directory) := by
  have hbelow : ∀ q ∈ o.directory.ancestors,
      q.steps <+: o.directory.steps ∧ q.isAbsolute = true := by
    intro q hq
    obtain ⟨hsteps, habsolute⟩ := Path.of_mem_ancestors hq
    exact ⟨hsteps, habsolute habs⟩
  have hchanged := hp.makes.changed habs hbelow F
  refine hchanged.mono (fun _ => id) fun l hl => hl.of_grows (FileTree.Grows.refl _) ?_
  rw [View.start_eq_nil habs, View.start_eq_nil habs]

theorem leaves_of_spreads (habs : o.directory.isAbsolute = true) (hp : Entered o h p)
    {all written : List (String × Except Failure String)} {states : List BuildState}
    {files : List String} {calls : List (Invocation × Outcome)}
    (hadv : Advances o.directory e.tools p states files written calls p')
    (hspreads : Spreads o.directory written all p.host p'.host)
    (hholds : ∀ w ∈ written, ∃ text, w.2 = .ok text ∧
      p'.host.Holds (o.directory.child w.1) text) (previous : Location) :
    Leaves o.directory h all written (p'.leave previous) := by
  have hleave := grows_leave p' previous
  constructor
  case journal =>
    obtain ⟨events, hjournal, -, hleads, -⟩ := hp.events hadv
    rw [journal_leave]
    exact ⟨events, hjournal, hleads⟩
  case holds =>
    intro w hw
    obtain ⟨text, htext, hholds⟩ := hholds w hw
    refine ⟨text, htext, ?_⟩
    have hlast := hholds.of_grows hleave (start_child habs w.1 _ _) fun l _ => by rw [tree_leave]
    exact hlast.read
  case changed =>
    rw [tree_leave]
    refine FileTree.Changed.trans ((changed_of_entered habs hp _).mono (fun _ => id) ?_)
      (hspreads.changed.mono ?_ ?_)
    · intro l hl
      have hstart (v w : View) : w.start o.directory = v.start o.directory := by
        rw [View.start_eq_nil habs, View.start_eq_nil habs]
      exact .inl ((hl.of_grows hspreads.grows (hstart _ _)).of_grows hleave (hstart _ _))
    · rintro l ⟨w, hw, hl⟩
      exact ⟨w, hw, View.resolve_of_grows hleave (start_child habs w.1 _ _) hl⟩
    · rintro l ⟨w, hw, hl⟩
      exact .inr ⟨w, hw, hl.of_grows hleave (start_child habs w.1 _ _)⟩

end

theorem map_fst_artifacts (g : Generator) (o : Options) (e : Equipment) (p : Progress) :
    (artifacts g o e p).map Prod.fst = fileNames o.mode o.name o.run := by
  unfold artifacts designFiles fileNames
  cases o.mode <;> cases o.run <;> rfl

/-- Two files of a build have different names. -/
theorem nodup_map_fst_artifacts (g : Generator) (o : Options) (e : Equipment) (p : Progress) :
    ((artifacts g o e p).map Prod.fst).Nodup := by
  refine List.pairwise_map.2 ?_
  refine pairwise_of_forall₂ (extended_artifacts g o e p) (endings_nodup o.mode o.run) ?_
  intro w w' ext ext' hext hext' hne heq
  have hending := hext.ending
  rw [heq, hext'.ending, Option.some.injEq] at hending
  exact hne (String.toList_inj.1 hending).symm

/-- **What a build leaves**, with tools that write nothing: in the end its report lists the names of
the files that it wrote, each of them holds the text that was made for it, and nothing else is
changed but that directories were made on the way to them. A build that fails in its directory has
written a beginning of these files. -/
theorem run_leaves (g : Generator) (options : Options) (e : Equipment) (h : Host)
    (hidle : Idle e.tools) :
    match run g options e h with
    | (.ok r, p') => r.files = fileNames options.mode options.name options.run ∧ r.files.Nodup ∧
        ∃ p, Entered (options.within h) h p ∧
          r.files = (artifacts g (options.within h) e p).map Prod.fst ∧
          Leaves (options.within h).directory h (artifacts g (options.within h) e p)
            (artifacts g (options.within h) e p) p'
    | (.error f, p') => f.building? ≠ none → ∃ p written, Entered (options.within h) h p ∧
        written <+: artifacts g (options.within h) e p ∧
        Leaves (options.within h).directory h (artifacts g (options.within h) e p) written p' := by
  have habs := options.isAbsolute_within h
  generalize hout : run g options e h = out
  have hends : Ends g options e h out := hout ▸ run_ends g options e h
  cases hends with
  | refused hprepare => exact fun hb => absurd (untraced_of_prepare hprepare).1 hb
  | outside hb _ _ _ => exact fun hb' => absurd hb hb'
  | @reached p p' hp hall =>
    have hfiles : p'.files = (artifacts g (options.within h) e p).map Prod.fst := by
      rw [hall.advances.files, hp.files, flatMap_noted_deeds]
      rfl
    have hnames := map_fst_artifacts g (options.within h) e p
    have hwritten := filterMap_written?_deeds g (options.within h) e p
    have hapart := pairwise_apart_artifacts g (options.within h) e p
    have hadv := hall.advances
    have hspreads := hall.spreads habs hidle (List.Subset.refl _)
    have hholds := fun w => hall.holds (w := w) habs hidle (hwritten ▸ hapart)
    rw [hwritten] at hadv hspreads hholds
    refine ⟨hfiles.trans hnames, ?_, p, hp, hfiles, ?_⟩
    · show p'.files.Nodup
      rw [hfiles]
      exact nodup_map_fst_artifacts g (options.within h) e p
    · exact leaves_of_spreads habs hp hadv hspreads hholds h.directory
  | @stopped p p' done rest d f hp hdeeds hfails =>
    intro _
    have hdone : done <+: deeds g (options.within h) e p := ⟨d :: rest, hdeeds.symm⟩
    have hwritten := filterMap_written?_deeds g (options.within h) e p
    have hsub := hdone.filterMap Deed.written?
    have hd : ∀ w ∈ d.written?, w ∈ artifacts g (options.within h) e p := by
      intro w hw
      rw [← hwritten, hdeeds]
      exact List.mem_filterMap.2 ⟨d, by simp, hw⟩
    have hapart := pairwise_apart_artifacts g (options.within h) e p
    rw [hwritten] at hsub
    obtain ⟨_, hadv⟩ := hfails.advances
    refine ⟨p, done.filterMap Deed.written?, hp, hsub, ?_⟩
    exact leaves_of_spreads habs hp hadv (hfails.spreads habs hidle hsub.subset hd)
      (fun w => hfails.holds habs hidle (hapart.sublist hsub.sublist) hd) h.directory

/-- A design that answers every question with one text. -/
def constant (text : String) : Generator where
  verilog := fun _ _ => .ok ⟨text, [], []⟩
  netlist := fun _ _ => .ok ⟨text, [], []⟩
  ioSignals := []

/-- Tools that end at once. -/
def quiet : Tools := fun _ t => (t, .ok (some 0))

/-- A build of a netlist on an empty disk, without its tools. -/
def netlistBuild : Except Failure Report × Progress :=
  run (constant "(edif top)") { Options.default ⟨"xc6slx9"⟩ with mode := .edif, run := false }
    ⟨quiet, .empty, none⟩ (Host.start ⟨FileTree.empty, []⟩ [])

theorem leaves_of_netlistBuild : Idle quiet ∧
    netlistBuild.2.host.read ⟨"/build/top.edif"⟩ = .ok "(edif top)" ∧
    match netlistBuild with
    | (.ok r, _) => r.files = ["top.edif", "top.ucf"]
    | (.error _, _) => False := by
  have hidle : Idle quiet := fun _ _ => rfl
  have hleaves := run_leaves (constant "(edif top)")
    { Options.default ⟨"xc6slx9"⟩ with mode := .edif, run := false } ⟨quiet, .empty, none⟩
    (Host.start ⟨FileTree.empty, []⟩ []) hidle
  have hok : netlistBuild.1.isOk = true := by decide +kernel
  refine ⟨hidle, by decide +kernel, ?_⟩
  rw [← netlistBuild] at hleaves
  revert hleaves hok
  cases netlistBuild with
  | mk r p =>
    cases r with
    | ok r => exact fun hleaves _ => hleaves.1
    | error f =>
      intro _ hok
      cases hok

end Build

end FpgaFlow
