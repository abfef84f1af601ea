import FpgaFlow.Proofs.Build.Contents

/-!
# What a build leaves in place

A deed keeps everything that it does not write, up to what the tools do
(`Deed.keeps`).  The files of a build are never in one place, so that each of them is
written once (`writtenSince_of_mem`) and keeps what was written to it (`Performs.kept`).
-/

namespace FpgaFlow

/-- Tools leave alone what is at a location. -/
def Keeps (tools : Tools) (l : Location) : Prop :=
  ∀ call t, (tools call t).1.lookup l = t.lookup l

theorem Host.Makes.keeps {ps : List Path} {h h' : Host} (hm : h.Makes ps h') {l : Location}
    {x : Entry} (hl : h.tree.lookup l = some x) : h'.tree.lookup l = some x := by
  induction hm with
  | refl => exact hl
  | @step h₁ h₂ p _ _ hmake ih =>
    obtain ⟨m, hm, rfl⟩ := Host.makeDirectory_eq_ok_iff.1 hmake
    obtain ⟨_, _, -, -, hnone⟩ := View.directoryTarget_eq_ok_iff.1 hm
    have hne : l ≠ m := by
      intro heq
      rw [heq, hnone] at ih
      cases ih
    show (h₁.tree.put m .directory).lookup l = some x
    rw [FileTree.lookup_put (View.accepts_of_directoryTarget hm), if_neg hne]
    exact ih

namespace Build

variable {directory : Path} {tools : Tools} {p p' : Progress} {ds : List Deed}

/-- No path to a file leads to a location. -/
def Avoids (directory : Path) (l : Location) (w : String × Except Failure String) : Prop :=
  ∀ v : View, v.fileTarget (directory.child w.1) ≠ .ok l

/-- Two files of a directory are never in one place. -/
def Apart (directory : Path) (w w' : String × Except Failure String) : Prop :=
  ∀ (v : View) (l : Location), v.fileTarget (directory.child w.1) = .ok l → Avoids directory l w'

/-- **A deed keeps what it does not write**, whether it succeeds or not. -/
theorem Deed.keeps {d : Deed} {r : Except Failure Unit}
    (hd : ExceptT.run (d.perform directory tools) p = (r, p')) {l : Location} {x : Entry}
    (hl : p.host.tree.lookup l = some x) (hkeep : Keeps tools l)
    (havoid : r = .ok () → ∀ w ∈ d.written?, Avoids directory l w) :
    p'.host.tree.lookup l = some x := by
  cases d with
  | enter s =>
    obtain ⟨-, rfl⟩ := Prod.mk.inj hd
    exact hl
  | ask q =>
    obtain ⟨-, rfl⟩ := Prod.mk.inj hd
    exact hl
  | await answer =>
    obtain ⟨-, rfl⟩ := Prod.mk.inj hd
    exact hl
  | note files =>
    obtain ⟨-, rfl⟩ := Prod.mk.inj hd
    exact hl
  | write file text =>
    rcases Deed.write_cases hd with
      ⟨_, -, -, rfl⟩ | ⟨t, made, rfl, hmakes, ⟨m, hm, hr, rfl⟩ | ⟨_, -, rfl⟩⟩
    · exact hl
    · have hne : l ≠ m := by
        rintro rfl
        exact havoid hr _ rfl made.toView hm
      show (made.writeFileAt m t).tree.lookup l = some x
      rw [Host.lookup_writeFileAt hm, if_neg hne]
      exact hmakes.keeps hl
    · exact hmakes.keeps hl
  | call c =>
    rw [perform, run_act, Action.run_runSuccessfully] at hd
    obtain ⟨-, rfl⟩ := Prod.mk.inj hd
    exact (hkeep _ _).trans hl

theorem Performs.keeps (h : Performs directory tools p ds p') {l : Location} {x : Entry}
    (hl : p.host.tree.lookup l = some x) (hkeep : Keeps tools l)
    (havoid : ∀ w ∈ ds.filterMap Deed.written?, Avoids directory l w) :
    p'.host.tree.lookup l = some x := by
  induction h with
  | nil => exact hl
  | @cons p p₁ p' d ds hd _ ih =>
    refine ih (Deed.keeps hd hl hkeep fun _ w hw => ?_) fun w hw => ?_
    · exact havoid w (List.mem_filterMap.2 ⟨d, List.mem_cons_self, hw⟩)
    · obtain ⟨d', hd', hw'⟩ := List.mem_filterMap.1 hw
      exact havoid w (List.mem_filterMap.2 ⟨d', List.mem_cons_of_mem _ hd', hw'⟩)

/-- What a deed wrote is where it wrote it. -/
theorem Deed.wrote {d : Deed} (hd : ExceptT.run (d.perform directory tools) p = (.ok (), p'))
    {events : List Event} (hjournal : p'.host.journal = p.host.journal ++ events) {l : Location}
    {text : String} (hmem : .wroteFile l text ∈ events) :
    (∃ x, p'.host.tree.lookup l = some (.file (.text text) x)) ∧
      ∃ w ∈ d.written?, ∃ v : View, v.fileTarget (directory.child w.1) = .ok l := by
  have hnone (h : p'.host.journal = p.host.journal) : False := by
    rw [h, List.self_eq_append_right] at hjournal
    rw [hjournal] at hmem
    cases hmem
  cases d with
  | enter s =>
    obtain ⟨-, rfl⟩ := Prod.mk.inj hd
    exact (hnone rfl).elim
  | ask q =>
    obtain ⟨-, rfl⟩ := Prod.mk.inj hd
    exact (hnone rfl).elim
  | await answer =>
    obtain ⟨-, rfl⟩ := Prod.mk.inj hd
    exact (hnone rfl).elim
  | note files =>
    obtain ⟨-, rfl⟩ := Prod.mk.inj hd
    exact (hnone rfl).elim
  | write file text' =>
    rcases Deed.write_cases hd with
      ⟨_, -, hr, -⟩ | ⟨t, made, rfl, hmakes, ⟨m, hm, -, rfl⟩ | ⟨_, hr, -⟩⟩
    · cases hr
    · obtain ⟨ls, hdid⟩ := hmakes.did tools
      have hevents : events = ls.map .madeDirectory ++ [.wroteFile m t] := by
        have hall := (hdid.trans (Host.did_writeFileAt tools made m t)).journal
        exact List.append_cancel_left (hjournal.symm.trans hall)
      rw [hevents, List.mem_append, List.mem_singleton] at hmem
      rcases hmem with hmem | hmem
      · obtain ⟨_, -, heq⟩ := List.mem_map.1 hmem
        cases heq
      · obtain ⟨rfl, rfl⟩ := Event.wroteFile.inj hmem
        refine ⟨⟨made.tree.executableAt l, ?_⟩, _, rfl, made.toView, hm⟩
        show (made.writeFileAt l text).tree.lookup l = _
        rw [Host.lookup_writeFileAt hm, if_pos rfl]
    · cases hr
  | call c =>
    rw [perform, run_act, Action.run_runSuccessfully] at hd
    obtain ⟨-, rfl⟩ := Prod.mk.inj hd
    have hcall := (Host.did_runTool tools p.host c.program c.arguments).journal
    rw [List.append_cancel_left (hjournal.symm.trans hcall), List.mem_singleton] at hmem
    cases hmem

/-- **Files that are apart keep what was written to them** when the tools leave them alone. -/
theorem Performs.kept (h : Performs directory tools p ds p')
    (hapart : (ds.filterMap Deed.written?).Pairwise (Apart directory)) {events : List Event}
    (hjournal : p'.host.journal = p.host.journal ++ events) {l : Location} {text : String}
    (hmem : .wroteFile l text ∈ events) (hkeep : Keeps tools l) :
    ∃ x, p'.host.tree.lookup l = some (.file (.text text) x) := by
  induction h generalizing events with
  | nil =>
    rw [List.self_eq_append_right.1 hjournal] at hmem
    cases hmem
  | @cons p p₁ p' d ds hd hds ih =>
    obtain ⟨xs, hfirst, -⟩ := (Deed.advances hd).host
    obtain ⟨ys, hrest, -⟩ := hds.advances.host
    have hevents : events = xs ++ ys :=
      List.append_cancel_left (hjournal.symm.trans (hfirst.trans hrest).journal)
    have hsub : (ds.filterMap Deed.written?).Sublist ((d :: ds).filterMap Deed.written?) :=
      (List.sublist_cons_self d ds).filterMap _
    rw [hevents, List.mem_append] at hmem
    rcases hmem with hmem | hmem
    · obtain ⟨⟨x, hx⟩, w, hw, v, hv⟩ := Deed.wrote hd hfirst.journal hmem
      refine ⟨x, hds.keeps hx hkeep fun w' hw' => ?_⟩
      rw [List.filterMap_cons_some hw] at hapart
      exact (List.pairwise_cons.1 hapart).1 w' hw' v l hv
    · exact ih (hapart.sublist hsub) hrest.journal hmem

theorem Fails.kept {done : List Deed} {d : Deed} {f : Failure}
    (h : Fails directory tools p done d f p')
    (hapart : (done.filterMap Deed.written?).Pairwise (Apart directory)) {events : List Event}
    (hjournal : p'.host.journal = p.host.journal ++ events) {l : Location} {text : String}
    (hmem : .wroteFile l text ∈ events) (hkeep : Keeps tools l) :
    ∃ x, p'.host.tree.lookup l = some (.file (.text text) x) := by
  obtain ⟨p₁, hdone, hd⟩ := h
  obtain ⟨xs, hfirst, -⟩ := hdone.advances.host
  obtain ⟨ys, hlast, hnone⟩ : ∃ ys, p₁.host.Did tools ys p'.host ∧
      List.Forall₂ (Leads directory) [] (ys.filterMap Event.written?) := by
    obtain ⟨-, -, ⟨-, hadv⟩ | ⟨_, _, -, -, hadv⟩⟩ := Deed.advances_of_error hd
    · obtain ⟨ys, hlast, hwrites, -⟩ := hadv.host
      exact ⟨ys, hlast, hwrites⟩
    · obtain ⟨ys, hlast, hwrites, -⟩ := hadv.host
      exact ⟨ys, hlast, hwrites⟩
  have hevents : events = xs ++ ys :=
    List.append_cancel_left (hjournal.symm.trans (hfirst.trans hlast).journal)
  rw [hevents, List.mem_append] at hmem
  rcases hmem with hmem | hmem
  · obtain ⟨x, hx⟩ := hdone.kept hapart hfirst.journal hmem hkeep
    exact ⟨x, Deed.keeps hd hx hkeep fun hr => by cases hr⟩
  · have hw : (l, text) ∈ ys.filterMap Event.written? := List.mem_filterMap.2 ⟨_, hmem, rfl⟩
    rw [List.forall₂_nil_left_iff.1 hnone] at hw
    cases hw

theorem pairwise_of_forall₂ {α β : Type} {R : α → β → Prop} {S : α → α → Prop} {as : List α}
    {bs : List β} (h : List.Forall₂ R as bs) (hbs : bs.Nodup)
    (hS : ∀ a a' b b', R a b → R a' b' → b ≠ b' → S a a') : as.Pairwise S := by
  induction h with
  | nil => exact .nil
  | @cons a b as bs hab hrest ih =>
    obtain ⟨hb, hnodup⟩ := List.nodup_cons.1 hbs
    refine .cons (fun a' ha' => ?_) (ih hnodup)
    obtain ⟨b', hb', hab'⟩ := mem_right_of_forall₂ hrest ha'
    refine hS a a' b b' hab hab' ?_
    rintro rfl
    exact hb hb'

/-- **The files of a build are apart**, since each has an extension of its own. -/
theorem pairwise_apart_artifacts (g : Generator) (o : Options) (e : Equipment) (p : Progress) :
    (artifacts g o e p).Pairwise (Apart o.directory) := by
  refine pairwise_of_forall₂ (extended_artifacts g o e p) (endings_nodup o.mode o.run) ?_
  intro w w' ext ext' hext hext' hne v l hv u hu
  exact hne (ne_of_extended hext hext' hv hu)

section

variable {g : Generator} {o : Options} {e : Equipment} {h : Host} {p p' : Progress}
  {done : List Deed}

theorem pairwise_apart_of_beginning (hdone : done <+: deeds g o e p) :
    (done.filterMap Deed.written?).Pairwise (Apart o.directory) := by
  have hall := pairwise_apart_artifacts g o e p
  rw [← filterMap_written?_deeds] at hall
  exact hall.sublist (hdone.filterMap Deed.written?).sublist

/-! ### What was written to a place -/

/-- The texts that were written since `h` to the file at a location, in their order. -/
def writtenSince (h : Host) (p : Progress) (l : Location) : List String :=
  (((p.host.journal.drop h.journal.length).filterMap Event.written?).filter
    fun w => w.1 = l).map Prod.snd

theorem writtenSince_eq {events : List Event} (hjournal : p.host.journal = h.journal ++ events)
    (l : Location) : writtenSince h p l =
      ((events.filterMap Event.written?).filter fun w => w.1 = l).map Prod.snd := by
  rw [writtenSince, hjournal, List.drop_left]

/-- Files that are not in a place leave nothing there. -/
theorem filter_of_leads {directory : Path} {writes : List (String × Except Failure String)}
    {es : List (Location × String)} (hleads : List.Forall₂ (Leads directory) writes es)
    {l : Location} (havoids : ∀ w ∈ writes, Avoids directory l w) :
    (es.filter fun w => w.1 = l) = [] := by
  refine List.filter_eq_nil_iff.2 fun w hw heq => ?_
  obtain ⟨a, ha, -, v, hv⟩ := mem_right_of_forall₂ hleads.flip hw
  rw [of_decide_eq_true heq] at hv
  exact havoids a ha v hv

/-- Of files that are apart each has one text in its place. -/
theorem filter_of_leads_of_mem {directory : Path} (habs : directory.isAbsolute = true)
    {before after : List (String × Except Failure String)} {file : String}
    {text : Except Failure String} {es : List (Location × String)}
    (hleads : List.Forall₂ (Leads directory) (before ++ (file, text) :: after) es)
    (hapart : (before ++ (file, text) :: after).Pairwise (Apart directory)) :
    ∃ t, text = .ok t ∧
      (es.filter fun w => w.1 = (directory.child file).location).map Prod.snd = [t] := by
  have hxs := (List.forall₂_take_append _ _ _ hleads.flip).flip
  have hys := (List.forall₂_drop_append _ _ _ hleads.flip).flip
  obtain ⟨y, zs, ⟨htext, v, hv⟩, hzs, hrest⟩ := List.forall₂_cons_left_iff.1 hys
  have hplace : y.1 = (directory.child file).location :=
    View.location_of_fileTarget (Path.isAbsolute_child habs _) hv
  obtain ⟨-, htail, hcross⟩ := List.pairwise_append.1 hapart
  have hbefore := filter_of_leads hxs fun w hw u hu =>
    hcross w hw _ List.mem_cons_self u _ hu v hv
  have hafter := filter_of_leads hzs fun w hw => (List.pairwise_cons.1 htail).1 w hw v _ hv
  refine ⟨y.2, htext, ?_⟩
  rw [← List.take_append_drop before.length es, hrest, ← hplace, List.filter_append, hbefore,
    List.nil_append, List.filter_cons_of_pos (by simp), hafter]
  rfl

variable {states : List BuildState} {files : List String}
  {writes : List (String × Except Failure String)} {calls : List (Invocation × Outcome)}

theorem writtenSince_of_avoids (hp : Entered o h p)
    (hadv : Advances o.directory e.tools p states files writes calls p') {l : Location}
    (havoids : ∀ w ∈ writes, Avoids o.directory l w) (previous : Location) :
    writtenSince h (p'.leave previous) l = [] := by
  obtain ⟨events, hjournal, -, hleads, -⟩ := hp.events hadv
  rw [← journal_leave p' previous] at hjournal
  rw [writtenSince_eq hjournal, filter_of_leads hleads havoids]
  rfl

/-- **A file that a build wrote was written once.** -/
theorem writtenSince_of_mem (hp : Entered o h p) (habs : o.directory.isAbsolute = true)
    (hdone : done <+: deeds g o e p)
    (hadv : Advances o.directory e.tools p states files (done.filterMap Deed.written?) calls p')
    {file : String} {text : Except Failure String}
    (hmem : (file, text) ∈ done.filterMap Deed.written?) (previous : Location) :
    ∃ t, text = .ok t ∧
      writtenSince h (p'.leave previous) (o.directory.child file).location = [t] := by
  obtain ⟨events, hjournal, -, hleads, -⟩ := hp.events hadv
  obtain ⟨before, after, hsplit⟩ := List.append_of_mem hmem
  have hapart := pairwise_apart_of_beginning hdone
  rw [hsplit] at hleads hapart
  rw [← journal_leave p' previous] at hjournal
  rw [writtenSince_eq hjournal]
  exact filter_of_leads_of_mem habs hleads hapart

end

end Build

end FpgaFlow
