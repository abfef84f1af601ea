import FpgaFlow.Build.Run
import FpgaFlow.Proofs.Host.Writing
import Mathlib.Data.List.Forall2

/-!
# The deeds of a build

What a build does inside its directory is a list of deeds: it enters a state, asks
its design, waits for an answer, writes a file or calls a program (`Build.Deed`).
Deeds are performed one after the other, up to the first that fails
(`Build.performAll`); an answer or a text that is a failure fails when it is needed.

`Build.deeds` is the list for a generator and its options, and
`Build.stages_unfolds` says that the stages of a build perform it.  What one deed
does to the progress of a build is said once (`Deed.advances`, `Deed.advances_of_error`),
and what a whole build does follows by induction on the list.
-/

namespace FpgaFlow

namespace Build

/-- A call of a tool. -/
structure Call where
  tool : Tool
  program : Path
  arguments : List String
  deriving DecidableEq, Repr

/-- One thing that a build does inside its directory. -/
inductive Deed where
  | enter (s : BuildState)
  | ask (q : Question)
  | await (answer : Except Failure Unit)
  | write (file : String) (text : Except Failure String)
  | note (files : List String)
  | call (c : Call)

namespace Deed

/-- Does the deed. -/
def perform (directory : Path) (tools : Tools) : Deed → Stage Unit
  | enter s => Stage.enter s
  | ask q => Stage.ask q
  | await answer => Stage.act (Action.look fun _ => answer)
  | write _ (.error f) => Stage.act (Action.look fun _ => .error f)
  | write file (.ok text) => Stage.act (Action.writeText (directory.child file) text)
  | note files => Stage.note files
  | call c => Stage.act (Action.runSuccessfully tools c.tool c.program c.arguments)

def state? : Deed → Option BuildState
  | enter s => some s
  | _ => none

def noted : Deed → List String
  | note files => files
  | _ => []

def written? : Deed → Option (String × Except Failure String)
  | write file text => some (file, text)
  | _ => none

def call? : Deed → Option Call
  | call c => some c
  | _ => none

end Deed

/-- Does one deed after the other. The first that fails is the last. -/
def performAll (directory : Path) (tools : Tools) : List Deed → Stage Unit
  | [] => pure ()
  | d :: ds => do
    d.perform directory tools
    performAll directory tools ds

/-- The deeds succeed and lead from one progress to another. -/
inductive Performs (directory : Path) (tools : Tools) : Progress → List Deed → Progress → Prop
  | nil (p : Progress) : Performs directory tools p [] p
  | cons {p p₁ p' : Progress} {d : Deed} {ds : List Deed} :
      ExceptT.run (d.perform directory tools) p = (.ok (), p₁) →
      Performs directory tools p₁ ds p' → Performs directory tools p (d :: ds) p'

/-- The deeds come to one that fails; `done` succeeded before it. -/
inductive Fails (directory : Path) (tools : Tools) (p : Progress) (done : List Deed) (d : Deed)
    (f : Failure) (p' : Progress) : Prop
  | intro (p₁ : Progress) : Performs directory tools p done p₁ →
      ExceptT.run (d.perform directory tools) p₁ = (.error f, p') →
      Fails directory tools p done d f p'

variable {directory : Path} {tools : Tools} {p p' : Progress} {ds es : List Deed}

theorem Performs.append {p₁ : Progress} (h : Performs directory tools p ds p₁)
    (g : Performs directory tools p₁ es p') : Performs directory tools p (ds ++ es) p' := by
  induction h with
  | nil => exact g
  | cons hd _ ih => exact .cons hd (ih g)

theorem Performs.split (h : Performs directory tools p (ds ++ es) p') :
    ∃ p₁, Performs directory tools p ds p₁ ∧ Performs directory tools p₁ es p' := by
  induction ds generalizing p with
  | nil => exact ⟨p, .nil p, h⟩
  | cons d ds ih =>
    cases h with
    | cons hd hrest =>
      obtain ⟨p₁, h₁, h₂⟩ := ih hrest
      exact ⟨p₁, .cons hd h₁, h₂⟩

theorem Performs.run (h : Performs directory tools p ds p') :
    ExceptT.run (performAll directory tools ds) p = (.ok (), p') := by
  induction h with
  | nil => rfl
  | cons hd _ ih =>
    rw [performAll, run_bind, hd]
    exact ih

theorem Fails.run {d : Deed} {f : Failure} (h : Fails directory tools p ds d f p')
    (rest : List Deed) :
    ExceptT.run (performAll directory tools (ds ++ d :: rest)) p = (.error f, p') := by
  obtain ⟨p₁, hdone, hd⟩ := h
  induction hdone with
  | nil => rw [List.nil_append, performAll, run_bind, hd]
  | cons hfirst _ ih =>
    rw [List.cons_append, performAll, run_bind, hfirst]
    exact ih hd

/-! ### What deeds leave behind -/

end Build

namespace Event

/-- The file that was written, and its text. -/
def written? : Event → Option (Location × String)
  | .wroteFile l text => some (l, text)
  | _ => none

/-- The call that was made, and how it ended. -/
def called? : Event → Option (Invocation × Outcome)
  | .ranTool call _ outcome => some (call, outcome)
  | _ => none

end Event

namespace Build

variable {directory : Path} {tools : Tools} {p p' : Progress} {ds : List Deed}

/-- An event is the writing of the file that a name leads to, in some state of the tree. -/
def Leads (directory : Path) (w : String × Except Failure String) (e : Location × String) : Prop :=
  w.2 = .ok e.2 ∧ ∃ v : View, v.fileTarget (directory.child w.1) = .ok e.1

/-- A build went on: it entered states, noted names, wrote files and made calls. -/
structure Advances (directory : Path) (tools : Tools) (p : Progress) (states : List BuildState)
    (files : List String) (writes : List (String × Except Failure String))
    (calls : List (Invocation × Outcome)) (p' : Progress) : Prop where
  states : p'.states = p.states ++ states
  files : p'.files = p.files ++ files
  host : ∃ events, p.host.Did tools events p'.host ∧
    List.Forall₂ (Leads directory) writes (events.filterMap Event.written?) ∧
    events.filterMap Event.called? = calls

theorem Advances.refl (directory : Path) (tools : Tools) (p : Progress) :
    Advances directory tools p [] [] [] [] p :=
  ⟨by simp, by simp, [], Host.Did.refl tools p.host, .nil, rfl⟩

theorem Advances.directory_eq {states : List BuildState} {files : List String}
    {writes : List (String × Except Failure String)} {calls : List (Invocation × Outcome)}
    (h : Advances directory tools p states files writes calls p') :
    p'.host.directory = p.host.directory := by
  obtain ⟨_, hdid, -⟩ := h.host
  exact hdid.directory

theorem Advances.trans {states states' : List BuildState} {files files' : List String}
    {writes writes' : List (String × Except Failure String)}
    {calls calls' : List (Invocation × Outcome)} {p₁ : Progress}
    (h : Advances directory tools p states files writes calls p₁)
    (g : Advances directory tools p₁ states' files' writes' calls' p') :
    Advances directory tools p (states ++ states') (files ++ files') (writes ++ writes')
      (calls ++ calls') p' := by
  obtain ⟨xs, hx, hxw, hxc⟩ := h.host
  obtain ⟨ys, hy, hyw, hyc⟩ := g.host
  refine ⟨?_, ?_, xs ++ ys, hx.trans hy, ?_, ?_⟩
  · rw [g.states, h.states, List.append_assoc]
  · rw [g.files, h.files, List.append_assoc]
  · rw [List.filterMap_append]
    exact List.rel_append hxw hyw
  · rw [List.filterMap_append, hxc, hyc]

/-- A call as it is made from the directory of a build, and how it ended. -/
def Call.made (h : Host) (c : Call) (outcome : Outcome) : Invocation × Outcome :=
  (h.callOf c.program c.arguments, outcome)

theorem filterMap_written?_madeDirectory (ls : List Location) :
    (ls.map Event.madeDirectory).filterMap Event.written? = [] := by
  rw [List.filterMap_map, List.filterMap_eq_nil_iff]
  intro l _
  rfl

theorem filterMap_called?_madeDirectory (ls : List Location) :
    (ls.map Event.madeDirectory).filterMap Event.called? = [] := by
  rw [List.filterMap_map, List.filterMap_eq_nil_iff]
  intro l _
  rfl

theorem run_act (a : Action Unit) (p : Progress) : ExceptT.run (Stage.act a) p =
    ((ExceptT.run a p.host).1, { p with host := (ExceptT.run a p.host).2 }) := rfl

/-- Making directories changes nothing but the tree. -/
theorem advances_makes (directory : Path) (tools : Tools) {ps : List Path} {made : Host}
    (h : p.host.Makes ps made) :
    Advances directory tools p [] [] [] [] { p with host := made } := by
  obtain ⟨ls, hdid⟩ := h.did tools
  refine ⟨by simp, by simp, _, hdid, ?_, filterMap_called?_madeDirectory ls⟩
  rw [filterMap_written?_madeDirectory]
  exact .nil

/-- **What a write does**: it fails with its text, or makes directories above its file and then
writes the file or fails. -/
theorem Deed.write_cases {file : String} {text : Except Failure String} {r : Except Failure Unit}
    (h : ExceptT.run (Deed.perform directory tools (.write file text)) p = (r, p')) :
    (∃ f, text = .error f ∧ r = .error f ∧ p' = p) ∨
    ∃ t made, text = .ok t ∧
      p.host.Makes (Action.directoriesAbove (directory.child file)) made ∧
      ((∃ l, made.fileTarget (directory.child file) = .ok l ∧ r = .ok () ∧
          p' = { p with host := made.writeFileAt l t }) ∨
        ∃ f, r = .error f ∧ p' = { p with host := made }) := by
  cases text with
  | error f =>
    obtain ⟨rfl, rfl⟩ := Prod.mk.inj h
    exact .inl ⟨f, rfl, rfl, rfl⟩
  | ok t =>
    rw [perform, run_act] at h
    obtain ⟨made, hmakes, hcases⟩ := Action.run_writeText (directory.child file) t p.host
    refine .inr ⟨t, made, rfl, hmakes, ?_⟩
    rcases hcases with ⟨written, hwrite, hrun⟩ | ⟨f, hrun⟩
    · rw [hrun] at h
      obtain ⟨rfl, rfl⟩ := Prod.mk.inj h
      obtain ⟨l, hl, rfl⟩ := Host.writeFile_eq_ok_iff.1 hwrite
      exact .inl ⟨l, hl, rfl, rfl⟩
    · rw [hrun] at h
      obtain ⟨rfl, rfl⟩ := Prod.mk.inj h
      exact .inr ⟨f, rfl, rfl⟩

theorem Deed.cause_of_write {file text : String} {f : Failure}
    (h : ExceptT.run (Deed.perform directory tools (.write file (.ok text))) p = (.error f, p')) :
    ∃ e, f.cause = .io e := by
  rw [perform, run_act] at h
  have hrun : ExceptT.run (Action.writeText (directory.child file) text) p.host =
      (.error f, (ExceptT.run (Action.writeText (directory.child file) text) p.host).2) :=
    Prod.ext (Prod.mk.inj h).1 rfl
  exact Action.cause_of_writeText hrun

/-- **A deed that succeeds** leaves what it is about. -/
theorem Deed.advances {d : Deed}
    (h : ExceptT.run (d.perform directory tools) p = (.ok (), p')) :
    Advances directory tools p d.state?.toList d.noted d.written?.toList
      (d.call?.toList.map fun c => c.made p.host (.ok (some 0))) p' := by
  cases d with
  | enter s =>
    obtain ⟨-, rfl⟩ := Prod.mk.inj h
    exact ⟨rfl, by simp [noted], [], Host.Did.refl tools p.host, .nil, rfl⟩
  | ask q =>
    obtain ⟨-, rfl⟩ := Prod.mk.inj h
    exact ⟨by simp [state?], by simp [noted], [], Host.Did.refl tools p.host, .nil, rfl⟩
  | note files =>
    obtain ⟨-, rfl⟩ := Prod.mk.inj h
    exact ⟨by simp [state?], rfl, [], Host.Did.refl tools p.host, .nil, rfl⟩
  | await answer =>
    obtain ⟨-, rfl⟩ := Prod.mk.inj h
    exact ⟨by simp [state?], by simp [noted], [], Host.Did.refl tools p.host, .nil, rfl⟩
  | write file text =>
    rcases Deed.write_cases h with
      ⟨f, -, hr, -⟩ | ⟨t, made, rfl, hmakes, ⟨l, hl, -, rfl⟩ | ⟨f, hr, -⟩⟩
    · cases hr
    · have hlast : Advances directory tools { p with host := made } [] [] [(file, .ok t)] []
          { p with host := made.writeFileAt l t } :=
        ⟨by simp, by simp, _, Host.did_writeFileAt tools made l t,
          .cons ⟨rfl, made.toView, hl⟩ .nil, rfl⟩
      exact (advances_makes directory tools hmakes).trans hlast
    · cases hr
  | call c =>
    rw [perform, run_act, Action.run_runSuccessfully] at h
    obtain ⟨hverdict, rfl⟩ := Prod.mk.inj h
    have hout := Tool.verdict_eq_ok_iff.1 hverdict
    refine ⟨by simp [state?], by simp [noted], _, Host.did_runTool tools p.host _ _, .nil, ?_⟩
    simp [Event.called?, call?, Call.made, hout]

/-- What is left of a deed that fails: nothing but directories, or a call that ended badly. -/
theorem Deed.advances_of_error {d : Deed} {f : Failure}
    (h : ExceptT.run (d.perform directory tools) p = (.error f, p')) :
    d.state? = none ∧ d.noted = [] ∧
      ((d.call? = none ∧ Advances directory tools p [] [] [] [] p') ∨
      ∃ c outcome, d = .call c ∧ c.tool.verdict outcome = .error f ∧
        Advances directory tools p [] [] [] [c.made p.host outcome] p') := by
  cases d with
  | enter s => cases (Prod.mk.inj h).1
  | ask q => cases (Prod.mk.inj h).1
  | note files => cases (Prod.mk.inj h).1
  | await answer =>
    obtain ⟨-, rfl⟩ := Prod.mk.inj h
    exact ⟨rfl, rfl, .inl ⟨rfl, Advances.refl directory tools p⟩⟩
  | write file text =>
    refine ⟨rfl, rfl, .inl ⟨rfl, ?_⟩⟩
    rcases Deed.write_cases h with
      ⟨_, -, -, rfl⟩ | ⟨_, made, -, hmakes, ⟨_, _, hr, -⟩ | ⟨_, -, rfl⟩⟩
    · exact Advances.refl directory tools p'
    · cases hr
    · exact advances_makes directory tools hmakes
  | call c =>
    rw [perform, run_act, Action.run_runSuccessfully] at h
    obtain ⟨hverdict, rfl⟩ := Prod.mk.inj h
    exact ⟨rfl, rfl, .inr ⟨c, _, rfl, hverdict, by simp, by simp, _,
      Host.did_runTool tools p.host _ _, .nil, rfl⟩⟩

theorem exists_events_of_error {d : Deed} {f : Failure}
    (h : ExceptT.run (d.perform directory tools) p = (.error f, p')) :
    ∃ events, p'.host.journal = p.host.journal ++ events := by
  obtain ⟨-, -, ⟨-, hadv⟩ | ⟨_, _, -, -, hadv⟩⟩ := Deed.advances_of_error h
  all_goals
    obtain ⟨events, hdid, -⟩ := hadv.host
    exact ⟨events, hdid.journal⟩

/-- What the deeds of a list leave when all succeed: its states, its names, its files and its calls,
in their order. -/
theorem Performs.advances (h : Performs directory tools p ds p') :
    Advances directory tools p (ds.filterMap Deed.state?) (ds.flatMap Deed.noted)
      (ds.filterMap Deed.written?)
      ((ds.filterMap Deed.call?).map fun c => c.made p.host (.ok (some 0))) p' := by
  induction h with
  | nil => exact Advances.refl directory tools _
  | @cons p p₁ p' d ds hd _ ih =>
    have hfirst := Deed.advances hd
    have hmade : (fun c : Call => c.made p₁.host (.ok (some 0))) =
        fun c => c.made p.host (.ok (some 0)) := by
      funext c
      rw [Call.made, Call.made, Host.callOf, Host.callOf, hfirst.directory_eq]
    rw [hmade] at ih
    have hboth := hfirst.trans ih
    rw [← List.map_append] at hboth
    simp only [List.filterMap_cons, List.flatMap_cons]
    cases d with
    | enter s => exact hboth
    | ask q => exact hboth
    | await answer => exact hboth
    | note files => exact hboth
    | write file text => exact hboth
    | call c => exact hboth

/-- A deed that fails adds at most a call to what the deeds before it left. -/
theorem Fails.advances {done : List Deed} {d : Deed} {f : Failure}
    (h : Fails directory tools p done d f p') :
    ∃ last : List (Invocation × Outcome),
      Advances directory tools p (done.filterMap Deed.state?) (done.flatMap Deed.noted)
        (done.filterMap Deed.written?)
        ((done.filterMap Deed.call?).map (fun c => c.made p.host (.ok (some 0))) ++ last) p' := by
  obtain ⟨p₁, hdone, hd⟩ := h
  obtain ⟨-, -, ⟨-, hadv⟩ | ⟨_, _, -, -, hadv⟩⟩ := Deed.advances_of_error hd
  · have hboth := hdone.advances.trans hadv
    simp only [List.append_nil] at hboth
    exact ⟨[], by simpa using hboth⟩
  · have hboth := hdone.advances.trans hadv
    simp only [List.append_nil] at hboth
    exact ⟨_, hboth⟩

end Build

end FpgaFlow
