import FpgaFlow.Proofs.Build.Constraints
import FpgaFlow.Proofs.Command.Prediction
import FpgaFlow.Proofs.Command.Refusal
import FpgaFlow.Proofs.Manifest.Shape
import Mathlib

/-!
# Keys that a manifest does not have

Two documents may differ in keys that are not in `Manifest.shape`, at any level and with any values.
Either they are refused in the same words, or they write manifests that differ in nothing but the
attributes of their signals for other toolchains.  These attributes have no clauses, so no build
shows them.

**Main statement** `unknown_keys_inert`: the builds of the two manifests are the same ones.
-/

namespace FpgaFlow

/-! ### Refusals in the same words -/

/-- Causes that differ at most in what stands in the values that a mismatch has found. -/
inductive Cause.Alike : Cause → Cause → Prop
  | refl (c : Cause) : Alike c c
  | mismatch {m m' : Schema.Mismatch} : m.Alike m' → Alike (.mismatch m) (.mismatch m')

/-- Failures in the same contexts and with the same words. -/
structure Failure.Alike (f f' : Failure) : Prop where
  contexts : f.contexts = f'.contexts
  cause : f.cause.Alike f'.cause

theorem Failure.Alike.failed_eq {f f' : Failure} (h : f.Alike f') :
    Command.failed f = Command.failed f' := by
  obtain ⟨contexts, cause⟩ := f
  obtain ⟨contexts', cause'⟩ := f'
  obtain ⟨rfl, hcause⟩ : contexts = contexts' ∧ cause.Alike cause' := ⟨h.contexts, h.cause⟩
  cases hcause with
  | refl => rfl
  | mismatch => rfl

/-! ### Designs with answers that are written alike -/

namespace Build

/-- What a build writes of the answer of a design. -/
def shown (generated : Generated) : String × String :=
  (generated.text, constraintText generated)

/-- Designs with answers that are written alike. -/
structure WrittenAlike (g g' : Generator) : Prop where
  verilog : ∀ table v, (g.verilog table v).map shown = (g'.verilog table v).map shown
  netlist : ∀ target v, (g.netlist target v).map shown = (g'.netlist target v).map shown
  signals : g.ioSignals = g'.ioSignals

section

variable {g g' : Generator} {o options : Options} {e : Equipment} {p : Progress}

theorem WrittenAlike.answer (h : WrittenAlike g g') (v : View) :
    (answer g o e v).map shown = (Build.answer g' o e v).map shown := by
  rw [Build.answer, Build.answer]
  split
  next => exact h.verilog _ _
  next => exact h.netlist _ _

theorem WrittenAlike.opening (h : WrittenAlike g g') :
    Build.opening g o e = Build.opening g' o e := by
  rw [Build.opening, Build.opening, synthesisDeeds, synthesisDeeds, h.signals]

theorem WrittenAlike.design (h : WrittenAlike g g') :
    (Build.design g o e p).map shown = (Build.design g' o e p).map shown := by
  rw [Build.design, Build.design, h.opening]
  exact h.answer _

/-- A build writes nothing else of an answer. -/
theorem body_of_shown (o : Options) (program : Path) {r r' : Except Failure Generated}
    (h : r.map shown = r'.map shown) : body o program r = body o program r' ∧
      constraintDeeds o r = constraintDeeds o r' := by
  cases r with
  | error f =>
    cases r' with
    | error f' =>
      obtain rfl := Except.error.inj h
      exact ⟨rfl, rfl⟩
    | ok _ => cases h
  | ok generated =>
    cases r' with
    | error _ => cases h
    | ok generated' =>
      obtain ⟨htext, hconstraints⟩ := Prod.mk.inj (Except.ok.inj h)
      constructor
      · rw [body, body, Except.map, Except.map, htext]
        rfl
      · rw [constraintDeeds, constraintDeeds, Except.map, Except.map, hconstraints]

theorem WrittenAlike.deeds (h : WrittenAlike g g') : deeds g o e p = Build.deeds g' o e p := by
  have hdesign : (Build.design g o e p).map shown = (Build.design g' o e p).map shown := h.design
  have hbody := body_of_shown o (Action.yosysProgram p.host) hdesign
  have hgenerating : generating g o e p = generating g' o e p := by
    rw [generating, generating, h.opening, hbody.1, hbody.2]
  rw [Build.deeds, Build.deeds, setup, setup, hgenerating]

/-- **Designs with answers that are written alike have the same builds.** -/
theorem WrittenAlike.run (h : WrittenAlike g g') (options : Options) (e : Equipment) (host : Host) :
    run g options e host = Build.run g' options e host := by
  have hstages : ∀ o p, ExceptT.run (stages g o e) p = ExceptT.run (stages g' o e) p := by
    intro o p
    rw [run_stages, run_stages, h.deeds]
  rw [Build.run, Build.run]
  simp only [hstages]

end

end Build

/-! ### Attributes without clauses -/

namespace SignalEntry

theorem clauses_bare (s : SignalEntry) (pin : String) :
    Ucf.clauses pin s.bare.attributes = Ucf.clauses pin s.attributes := by
  rw [Ucf.clauses, Ucf.clauses, s.filterMap_bare]

theorem signalLines_bare (s : SignalEntry) :
    Ucf.signalLines s.bare.constraint = Ucf.signalLines s.constraint := by
  have hnets : Ucf.nets s.bare.constraint = Ucf.nets s.constraint := rfl
  rw [Ucf.signalLines, Ucf.signalLines, hnets]
  refine List.map_congr_left fun net _ => ?_
  have hline : Ucf.line net.1 net.2 s.bare.attributes s.bare.constraint.resource =
      Ucf.line net.1 net.2 s.attributes s.constraint.resource := by
    rw [Ucf.line, Ucf.line, s.clauses_bare]
    rfl
  exact hline

end SignalEntry

namespace Manifest

variable (m : Manifest)

theorem constraintsOf_bare : Build.constraintsOf m.bare = Build.constraintsOf m := by
  have hlines : (m.bare.signals.map SignalEntry.constraint).flatMap Ucf.signalLines =
      (m.signals.map SignalEntry.constraint).flatMap Ucf.signalLines := by
    rw [bare, List.map_map, List.flatMap_map, List.flatMap_map]
    congr 1
    funext s
    exact s.signalLines_bare
  rw [Build.constraintsOf, Build.constraintsOf, Ucf.render, Ucf.render, hlines]
  rfl

theorem fault?_bare : m.bare.fault? = m.fault? := by
  have hfind : m.bare.signals.find? (fun s => s.pins.isEmpty) =
      (m.signals.find? fun s => s.pins.isEmpty).map SignalEntry.bare := List.find?_map
  rw [fault?, fault?, hfind]
  cases m.signals.find? fun s => s.pins.isEmpty <;> rfl

/-- **No build shows the attributes for other toolchains.** -/
theorem writtenAlike_bare (root : Path) : Build.WrittenAlike
    (PrecompiledDesign.generator ⟨m.bare, root⟩) (PrecompiledDesign.generator ⟨m, root⟩) := by
  have hshown : ∀ text, Build.shown (PrecompiledDesign.generated ⟨m.bare, root⟩ text) =
      Build.shown (PrecompiledDesign.generated ⟨m, root⟩ text) :=
    fun text => Prod.ext rfl m.constraintsOf_bare
  have hdesign : m.bare.design = m.design := rfl
  have hprimitives : m.bare.primitives = m.primitives := rfl
  refine ⟨fun table v => ?_, fun target v => ?_, ?_⟩
  · show (PrecompiledDesign.verilog ⟨m.bare, root⟩ table v).map Build.shown =
      (PrecompiledDesign.verilog ⟨m, root⟩ table v).map Build.shown
    rw [PrecompiledDesign.verilog, PrecompiledDesign.verilog, hdesign, hprimitives]
    cases m.design.verilog with
    | none => rfl
    | some file =>
      cases hread : v.readText (Path.absolutize root file) with
      | error f => simp [hread, bind, Except.bind, Except.map]
      | ok text =>
        by_cases hempty : m.primitives.isEmpty = true
        · simp [hread, hempty, bind, Except.bind, Except.map, pure, Except.pure, hshown]
        · cases hsplice : Verilog.splice? (PrecompiledDesign.items table m.primitives) text with
          | none => simp [hread, hempty, hsplice, bind, Except.bind, Except.map]
          | some spliced =>
            simp [hread, hempty, hsplice, bind, Except.bind, Except.map, pure, Except.pure, hshown]
  · show (PrecompiledDesign.netlist ⟨m.bare, root⟩ target v).map Build.shown =
      (PrecompiledDesign.netlist ⟨m, root⟩ target v).map Build.shown
    rw [PrecompiledDesign.netlist, PrecompiledDesign.netlist, hdesign]
    cases m.design.edif with
    | none => rfl
    | some file =>
      cases hread : v.readText (Path.absolutize root file) with
      | error f => simp [hread, bind, Except.bind, Except.map]
      | ok text => simp [hread, bind, Except.bind, Except.map, pure, Except.pure, hshown]
  · show m.bare.signals.map SignalEntry.name = m.signals.map SignalEntry.name
    rw [bare, List.map_map]
    rfl

/-- What is read from a text and from another one that differs in keys that are not known. -/
inductive ReadAlike : Except Failure Manifest → Except Failure Manifest → Prop
  | refused {f f' : Failure} : f.Alike f' → ReadAlike (.error f) (.error f')
  | accepted {m m' : Manifest} : m.bare = m'.bare → ReadAlike (.ok m) (.ok m')

theorem ReadAlike.cases {r r' : Except Failure Manifest} (h : ReadAlike r r') :
    (∃ f f', r = .error f ∧ r' = .error f' ∧ f.Alike f') ∨
      ∃ m m', r = .ok m ∧ r' = .ok m' ∧ m.bare = m'.bare := by
  cases h with
  | refused halike => exact .inl ⟨_, _, rfl, rfl, halike⟩
  | accepted hbare => exact .inr ⟨_, _, rfl, rfl, hbare⟩

end Manifest

/-! ### Commands -/

namespace Command

variable {tools : Tools} {a : BuildArguments} {h : Host} {mode : Mode} {file : Path}
variable {text : String} {m : Manifest}

/-- What a build command does with a design when it has read the manifest in a file. -/
def buildDesign (tools : Tools) (a : BuildArguments) (h : Host) (mode : Mode) (file : Path)
    (design : PrecompiledDesign) : Answer × Host :=
  match design.extraSources h.toView with
  | .error f => (failed f, h)
  | .ok sources =>
    let p : Plan := ⟨design, options a (configFor h (projectRoot h file)) mode h.workingDirectory
      (projectRoot h file) design sources⟩
    (p.answer a.format h (p.build tools h).1, (p.build tools h).2.host)

/-- A build command that comes to read the text of a manifest. -/
structure ComesTo (a : BuildArguments) (h : Host) (mode : Mode) (file : Path) (text : String) :
    Prop where
  found : manifestPath a h = .ok file
  chosen : chosenMode a (configFor h (projectRoot h file)) = .ok mode
  read : h.read file = .ok text

/-- What a build command does when it has read the manifest in a file. -/
def buildRead (tools : Tools) (a : BuildArguments) (h : Host) (mode : Mode) (file : Path) :
    Except Failure Manifest → Answer × Host
  | .error f => (failed f, h)
  | .ok m => buildDesign tools a h mode file ⟨m, file.parent?.getD ⟨""⟩⟩

/-- **A build command depends on the text of its manifest through what is read from it.** -/
theorem runBuild_of_comesTo (hc : ComesTo a h mode file text) : runBuild tools a h =
    buildRead tools a h mode file (Manifest.parse file text) := by
  have hmode : ∀ text fault, a.mode = some text → Mode.parse text ≠ .error fault := by
    intro text fault hgiven hfault
    have hchosen := hc.chosen
    rw [chosenMode, hgiven] at hchosen
    simp only [hfault] at hchosen
    cases hchosen
  have hplan := plan_eq hmode (h := h)
  rw [hc.found] at hplan
  simp only [bind, Except.bind, hc.chosen] at hplan
  cases hparse : Manifest.parse file text with
  | error f =>
    rw [load_eq_error_iff.2 (.inr ⟨text, hc.read, hparse⟩)] at hplan
    rw [runBuild, hplan]
    rfl
  | ok m =>
    rw [load_eq_ok hc.read hparse] at hplan
    rw [buildRead, buildDesign]
    cases hsources : PrecompiledDesign.extraSources ⟨m, file.parent?.getD ⟨""⟩⟩ h.toView with
    | error f =>
      simp only [hsources] at hplan
      rw [runBuild, hplan]
    | ok sources =>
      simp only [hsources] at hplan
      exact runBuild_of_plan hplan

/-- A command does not see the attributes for other toolchains. -/
theorem buildDesign_bare (root : Path) :
    buildDesign tools a h mode file ⟨m.bare, root⟩ = buildDesign tools a h mode file ⟨m, root⟩ := by
  have hsources : PrecompiledDesign.extraSources ⟨m.bare, root⟩ h.toView =
      PrecompiledDesign.extraSources ⟨m, root⟩ h.toView := rfl
  rw [buildDesign, buildDesign, hsources]
  cases PrecompiledDesign.extraSources ⟨m, root⟩ h.toView with
  | error f => rfl
  | ok sources =>
    simp only [Plan.build, (m.writtenAlike_bare root).run]
    rfl

theorem buildRead_congr {r r' : Except Failure Manifest} (hr : Manifest.ReadAlike r r') :
    buildRead tools a h mode file r = buildRead tools a h mode file r' := by
  cases hr with
  | refused halike => rw [buildRead, buildRead, halike.failed_eq]
  | accepted hbare => rw [buildRead, buildRead, ← buildDesign_bare, hbare, buildDesign_bare]

end Command

/-! ### Documents -/

namespace Manifest

theorem readAlike_of_strip {file : Path} {text text' : String} {d d' : Datum}
    (ht : Toml.parse text = some d) (ht' : Toml.parse text' = some d')
    (hd : Toml.onlyMoments d = true) (hd' : Toml.onlyMoments d' = true)
    (hstrip : Manifest.shape.strip d = Manifest.shape.strip d') :
    ReadAlike (parse file text) (parse file text') := by
  rw [parse, parse, ht, ht']
  dsimp only
  rcases (agree_decode hd hd' hstrip).cases with ⟨e, e', he, he', halike⟩ | ⟨m, m', hm, hm', hbare⟩
  · simp only [he, he', Cause.ofMismatch, Toml.wellDated_of_onlyMoments d hd,
      Toml.wellDated_of_onlyMoments d' hd', if_true]
    exact .refused ⟨rfl, .mismatch halike⟩
  · have hfault : m.fault? = m'.fault? := by rw [← m.fault?_bare, hbare, m'.fault?_bare]
    simp only [hm, hm', hfault]
    cases m'.fault? with
    | none => exact .accepted hbare
    | some cause => exact .refused ⟨rfl, .refl _⟩

/-- The signals of a manifest carry what their tables have beside the known keys. -/
theorem carries_of_parse {file : Path} {text : String} {d : Datum} {m : Manifest}
    (ht : Toml.parse text = some d) (hm : parse file text = .ok m) :
    List.Forall₂ SignalEntry.Carries (signalTables d) m.signals := by
  obtain ⟨entries, hdocument, hdecode, -⟩ := of_parse hm
  obtain rfl := Option.some.inj (hdocument.symm.trans ht)
  exact (signals_of_decode hdecode).imp fun _ _ hsignal => SignalEntry.carries_of_decode hsignal

/-- **Keys that a manifest does not have change nothing.** Two documents that are the same without
these keys are refused in the same words, or they have the same builds. -/
theorem unknown_keys_inert (file : Path) {text text' : String} {d d' : Datum}
    (ht : Toml.parse text = some d) (ht' : Toml.parse text' = some d')
    (hd : Toml.onlyMoments d = true) (hd' : Toml.onlyMoments d' = true)
    (hstrip : Manifest.shape.strip d = Manifest.shape.strip d') :
    (∀ tools a h mode, Command.ComesTo a h mode file text → Command.runBuild tools a h =
        Command.buildRead tools a h mode file (parse file text')) ∧
      ((∃ f f', parse file text = .error f ∧ parse file text' = .error f' ∧ f.Alike f') ∨
        ∃ m m', parse file text = .ok m ∧ parse file text' = .ok m' ∧
          (∀ root options e h, Build.run (PrecompiledDesign.generator ⟨m, root⟩) options e h =
            Build.run (PrecompiledDesign.generator ⟨m', root⟩) options e h) ∧
          List.Forall₂ SignalEntry.Carries (signalTables d) m.signals ∧
          List.Forall₂ SignalEntry.Carries (signalTables d') m'.signals) := by
  have hread : ReadAlike (parse file text) (parse file text') :=
    readAlike_of_strip ht ht' hd hd' hstrip
  constructor
  · intro tools a h mode hc
    rw [Command.runBuild_of_comesTo hc]
    exact Command.buildRead_congr hread
  · rcases hread.cases with hrefused | ⟨m, m', hm, hm', hbare⟩
    · exact .inl hrefused
    · refine .inr ⟨m, m', hm, hm', fun root options e h => ?_, carries_of_parse ht hm,
        carries_of_parse ht' hm'⟩
      rw [← (m.writtenAlike_bare root).run, hbare, (m'.writtenAlike_bare root).run]

/-! ### An annotated manifest -/

def plainText : String :=
  "[design]\ndevice = \"xc6slx9\"\nverilog = \"top.v\"\n\n" ++
    "[[signal]]\nname = \"led\"\npins = [\"P1\"]\n"

/-- The manifest with notes at all levels. -/
def annotatedText : String :=
  "revision = 2\n[design]\ndevice = \"xc6slx9\"\nowner = \x7b team = \"a\" \x7d\n" ++
    "verilog = \"top.v\"\n\n[[signal]]\nname = \"led\"\n" ++
    "added = 1979-05-27\npins = [\"P1\"]\n\n[extra]\nlevels = [1, \x7b x = true \x7d]\n"

def plainDocument : Datum :=
  .map [("design", .map [("device", .text "xc6slx9"), ("verilog", .text "top.v")]),
    ("signal", .list [.map [("name", .text "led"), ("pins", .list [.text "P1"])]])]

def annotatedDocument : Datum :=
  .map [("revision", .int 2),
    ("design", .map [("device", .text "xc6slx9"), ("owner", .map [("team", .text "a")]),
      ("verilog", .text "top.v")]),
    ("signal", .list [.map [("name", .text "led"),
      ("added", Toml.ofMoment "1979-05-27"), ("pins", .list [.text "P1"])]]),
    ("extra", .map [("levels", .list [.int 1, .map [("x", .bool true)]])])]

theorem parse_plainText : Toml.parse plainText = some plainDocument := by cbv

theorem parse_annotatedText : Toml.parse annotatedText = some annotatedDocument := by cbv

/-- The notes change no build, and those on the signal are carried along. -/
theorem inert_annotatedText : ∃ m m', parse ⟨"/p/Isebuild.toml"⟩ annotatedText = .ok m ∧
    parse ⟨"/p/Isebuild.toml"⟩ plainText = .ok m' ∧
    (∀ root options e h, Build.run (PrecompiledDesign.generator ⟨m, root⟩) options e h =
      Build.run (PrecompiledDesign.generator ⟨m', root⟩) options e h) ∧
    m.signals.map SignalEntry.others =
      [[("added", "\x7b \"$__toml_private_datetime\" = \"1979-05-27\" \x7d")]] := by
  have hothers : (parse ⟨"/p/Isebuild.toml"⟩ annotatedText).toOption.map
      (fun m => m.signals.map SignalEntry.others) =
      some [[("added", "\x7b \"$__toml_private_datetime\" = \"1979-05-27\" \x7d")]] := by
    decide +kernel
  obtain ⟨-, ⟨f, f', hf, -⟩ | ⟨m, m', hm, hm', hbuilds, -⟩⟩ :=
    unknown_keys_inert ⟨"/p/Isebuild.toml"⟩ parse_annotatedText parse_plainText (by decide)
      (by decide) rfl
  · rw [hf] at hothers
    cases hothers
  · rw [hm] at hothers
    exact ⟨m, m', hm, hm', hbuilds, Option.some.inj hothers⟩

end Manifest

end FpgaFlow
