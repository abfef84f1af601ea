import FpgaFlow.Command.Run
import FpgaFlow.Proofs.Build.Written
import FpgaFlow.Proofs.Command.Plan

/-!
# Builds that are refused

Before a build command does anything, it makes a number of checks, always in the same
order (`Requirement`).  `Flaw` says what each of them finds wrong, whatever the others
find: a manifest may be ill-formed while the mode of the configuration is none, too.

Each stage of a plan either refuses the command for its first flaw, or all checks up to
the end of the stage are passed (`checkManifest`, `checkPatterns`), and so it is with the
whole plan (`plan_checks`) and with the command (`runBuild_checks`).

**Main statement** `run_refuses`: a command with a flaw is refused for the first one, and
the host stays as it was.
-/

namespace FpgaFlow.Command

/-- What is checked before a build begins. -/
inductive Requirement where
  /-- The mode on the command line is one. -/
  | argumentMode
  /-- The working directory is still there. -/
  | location
  /-- A manifest is found in a directory above. -/
  | search
  /-- The mode in the configuration, if it counts, is one. -/
  | configuredMode
  /-- The manifest can be read. -/
  | reading
  /-- The manifest is a document. -/
  | grammar
  /-- The document has the keys and values of a manifest. -/
  | shape
  /-- Every signal has a pin. -/
  | pins
  /-- There is a text of the design. -/
  | artifacts
  /-- The further sources are given by patterns. -/
  | patterns
  /-- A mode that needs a synthesizer has one. -/
  | synthesizer
  deriving DecidableEq, Repr

/-- How many checks are made before this one. -/
def Requirement.rank : Requirement → Nat
  | argumentMode => 0
  | location => 1
  | search => 2
  | configuredMode => 3
  | reading => 4
  | grammar => 5
  | shape => 6
  | pins => 7
  | artifacts => 8
  | patterns => 9
  | synthesizer => 10

theorem Requirement.rank_inj {c c' : Requirement} (h : c.rank = c'.rank) : c = c' := by
  cases c <;> cases c' <;> first | rfl | cases h

/-- The file of the manifest holds one, whether or not it is a valid one. -/
structure Stated (a : BuildArguments) (h : Host) (m : Path) (manifest : Manifest) : Prop where
  path : manifestPath a h = .ok m
  decoded : ∃ text d, h.read m = .ok text ∧ Toml.parse text = some d ∧
    Manifest.decode d = .ok manifest

/-- What a check finds wrong with a command, and the failure that says so. -/
inductive Flaw (a : BuildArguments) (h : Host) : Requirement → Failure → Prop
  | argumentMode {text : String} {fault : Fault} :
      a.mode = some text → Mode.parse text = .error fault →
      Flaw a h .argumentMode (Failure.of (.fault fault))
  | location : h.tree.lookup h.directory ≠ some .directory →
      Flaw a h .location (Failure.of (.io .notFound))
  | search : a.manifest = none →
      (∀ d ∈ h.workingDirectory.ancestors, h.isFile (d.child Manifest.fileName) = false) →
      Flaw a h .search (Failure.of (.noManifest h.workingDirectory))
  | configuredMode {m : Path} {text : String} {fault : Fault} :
      a.mode = none → manifestPath a h = .ok m →
      (configFor h (projectRoot h m)).build.mode = some text → Mode.parse text = .error fault →
      Flaw a h .configuredMode (Failure.of (.fault fault))
  | reading {m : Path} {e : IoError} :
      manifestPath a h = .ok m → h.read m = .error e →
      Flaw a h .reading ⟨[.reading m], .io e⟩
  | grammar {m : Path} {text : String} :
      manifestPath a h = .ok m → h.read m = .ok text → Toml.parse text = none →
      Flaw a h .grammar ⟨[.parsingManifest m], .notToml⟩
  | shape {m : Path} {text : String} {d : Datum} {e : Schema.Mismatch} :
      manifestPath a h = .ok m → h.read m = .ok text → Toml.parse text = some d →
      Manifest.decode d = .error e →
      Flaw a h .shape ⟨[.parsingManifest m], Cause.ofMismatch d e⟩
  | pins {m : Path} {manifest : Manifest} {s : SignalEntry} :
      Stated a h m manifest → s ∈ manifest.signals → s.pins = [] →
      Flaw a h .pins (Failure.of (.noPins s.name))
  | artifacts {m : Path} {manifest : Manifest} :
      Stated a h m manifest → manifest.design.verilog = none → manifest.design.edif = none →
      Flaw a h .artifacts (Failure.of .noArtifact)
  | patterns {m : Path} {manifest : Manifest} {pattern : String} {e : Glob.PatternError} :
      Stated a h m manifest → pattern ∈ manifest.design.sources →
      Glob.PathPattern.parse ((m.parent?.getD ⟨""⟩).child pattern).text = .error e →
      Flaw a h .patterns ⟨[.globbing pattern], .pattern e⟩
  | synthesizer {m : Path} {manifest : Manifest} :
      Stated a h m manifest → chosenMode a (configFor h (projectRoot h m)) = .ok .mist →
      manifest.synthesizer = none →
      Flaw a h .synthesizer (Failure.of .noSynthesizer)

/-- The checks before the one with this number find nothing. -/
def Passed (a : BuildArguments) (h : Host) (n : Nat) : Prop :=
  ∀ c f, Flaw a h c f → n ≤ c.rank

/-- A flaw before which there is none. -/
structure First (a : BuildArguments) (h : Host) (c : Requirement) (f : Failure) : Prop where
  flaw : Flaw a h c f
  passed : Passed a h c.rank

section

variable {a : BuildArguments} {h : Host} {c : Requirement} {f : Failure} {m : Path}
  {manifest : Manifest}

theorem Passed.zero : Passed a h 0 := fun _ _ _ => Nat.zero_le _

/-- One more check that finds nothing. -/
theorem Passed.next (c : Requirement) (hp : Passed a h c.rank) (hnone : ∀ f, ¬ Flaw a h c f) :
    Passed a h (c.rank + 1) := by
  intro c' f hf
  have hle := hp c' f hf
  by_cases heq : c.rank = c'.rank
  · obtain rfl := Requirement.rank_inj heq
    exact absurd hf (hnone f)
  · omega

theorem Stated.manifest_eq {m' : Path} {manifest' : Manifest} (hs : Stated a h m manifest)
    (hs' : Stated a h m' manifest') : m' = m ∧ manifest' = manifest := by
  obtain ⟨hm, text, d, hread, hparse, hdecode⟩ := hs
  obtain ⟨hm', text', d', hread', hparse', hdecode'⟩ := hs'
  obtain rfl := Except.ok.inj (hm.symm.trans hm')
  obtain rfl := Except.ok.inj (hread.symm.trans hread')
  obtain rfl := Option.some.inj (hparse.symm.trans hparse')
  exact ⟨rfl, Except.ok.inj (hdecode'.symm.trans hdecode)⟩

theorem exitCode_of_fault?_eq_none (hf : f.fault? = none) : exitCode f = 1 := by
  rw [exitCode, hf]
  rfl

theorem Cause.fault?_ofMismatch (contexts : List Context) (d : Datum) (e : Schema.Mismatch) :
    Failure.fault? ⟨contexts, Cause.ofMismatch d e⟩ = none := by
  rw [Cause.ofMismatch]
  cases Toml.wellDated d <;> rfl

theorem eq_invalidMode {text : String} {fault : Fault} (h : Mode.parse text = .error fault) :
    fault = .invalidMode text := by
  rw [Mode.parse] at h
  split at h
  next => cases h
  next => exact (Except.error.inj h).symm

/-- No flaw is the failure of a tool, so all of them end in the same exit code. -/
theorem Flaw.exitCode_eq (hf : Flaw a h c f) : exitCode f = 1 := by
  cases hf with
  | argumentMode _ hparse =>
    rw [eq_invalidMode hparse]
    rfl
  | configuredMode _ _ _ hparse =>
    rw [eq_invalidMode hparse]
    rfl
  | shape => exact exitCode_of_fault?_eq_none (Cause.fault?_ofMismatch _ _ _)
  | _ => exact exitCode_of_fault?_eq_none rfl

/-! ### The mode and the place of the manifest -/

theorem findManifest_eq_error_iff {v : View} {start : Path} : v.findManifest start = .error f ↔
    (∀ d ∈ start.ancestors, v.isFile (d.child Manifest.fileName) = false) ∧
      f = Failure.of (.noManifest start) := by
  rw [View.findManifest]
  split
  next q hq =>
    obtain ⟨d, hd, rfl⟩ := List.mem_map.1 (List.mem_of_find?_eq_some hq)
    have hfile := List.find?_some hq
    constructor
    · intro heq
      cases heq
    · rintro ⟨hnone, -⟩
      rw [hnone d hd] at hfile
      cases hfile
  next hnone =>
    have hall : ∀ d ∈ start.ancestors, v.isFile (d.child Manifest.fileName) = false := by
      intro d hd
      simpa using List.find?_eq_none.1 hnone _ (List.mem_map_of_mem hd)
    exact ⟨fun heq => ⟨hall, (Except.error.inj heq).symm⟩, fun heq => by rw [heq.2]⟩

theorem manifestPath_eq_error_iff (hthere : h.tree.lookup h.directory = some .directory) :
    manifestPath a h = .error f ↔
      a.manifest = none ∧ h.findManifest h.workingDirectory = .error f := by
  rw [manifestPath_eq hthere]
  cases a.manifest <;> simp

/-- What a plan is made of when the mode of the command line is none of its flaws. -/
theorem plan_eq (hmode : ∀ text fault, a.mode = some text → Mode.parse text ≠ .error fault) :
    plan a h = (do
      let m ← manifestPath a h
      let mode ← chosenMode a (configFor h (projectRoot h m))
      let design ← PrecompiledDesign.load h.toView m
      let sources ← design.extraSources h.toView
      return ⟨design, options a (configFor h (projectRoot h m)) mode h.workingDirectory
        (projectRoot h m) design sources⟩) := by
  unfold plan chosenMode
  cases hgiven : a.mode with
  | none => rfl
  | some text =>
    cases hparse : Mode.parse text with
    | error fault => exact absurd hparse (hmode text fault hgiven)
    | ok mode =>
      simp only [hparse]
      rfl

theorem chosenMode_eq_error_iff {config : Config}
    (hmode : ∀ text fault, a.mode = some text → Mode.parse text ≠ .error fault) :
    chosenMode a config = .error f ↔ a.mode = none ∧
      ∃ text fault, config.build.mode = some text ∧ Mode.parse text = .error fault ∧
        f = Failure.of (.fault fault) := by
  rw [chosenMode]
  cases hgiven : a.mode with
  | some text =>
    cases hparse : Mode.parse text with
    | error fault => exact absurd hparse (hmode text fault hgiven)
    | ok mode => simp [orFail, Except.mapError, hparse]
  | none =>
    rw [Config.mode?]
    cases config.build.mode with
    | none => simp [orFail, Except.mapError, Except.map]
    | some text =>
      cases hparse : Mode.parse text with
      | error fault => simp [orFail, Except.mapError, Except.map, hparse, eq_comm]
      | ok mode => simp [orFail, Except.mapError, Except.map, hparse]

/-! ### The manifest -/

theorem load_eq_error_iff : PrecompiledDesign.load h.toView m = .error f ↔
    (∃ e, h.read m = .error e ∧ f = ⟨[.reading m], .io e⟩) ∨
      ∃ text, h.read m = .ok text ∧ Manifest.parse m text = .error f := by
  rw [PrecompiledDesign.load, View.loadManifest, View.readText, Action.inContext]
  cases h.read m with
  | error e => simp [Except.mapError, bind, Except.bind, eq_comm]
  | ok text =>
    simp only [Except.mapError, bind, Except.bind]
    cases hparse : Manifest.parse m text <;> simp [pure, Except.pure, hparse]

theorem load_eq_ok {text : String} (hread : h.read m = .ok text)
    (hparse : Manifest.parse m text = .ok manifest) :
    PrecompiledDesign.load h.toView m = .ok ⟨manifest, m.parent?.getD ⟨""⟩⟩ := by
  rw [PrecompiledDesign.load, View.loadManifest, View.readText_eq_ok_iff.2 hread]
  exact bind_eq_ok_iff.2 ⟨manifest, hparse, rfl⟩

/-- A manifest that is well-formed is refused for its first flaw, or it is valid. -/
theorem checkContent (hs : Stated a h m manifest) (hp : Passed a h Requirement.pins.rank) :
    (∃ c cause, manifest.fault? = some cause ∧ First a h c (Failure.of cause)) ∨
      manifest.fault? = none ∧ Passed a h Requirement.patterns.rank := by
  rw [Manifest.fault?]
  cases hfind : manifest.signals.find? fun s => s.pins.isEmpty with
  | some s =>
    have hpins := List.find?_some hfind
    have hmem := List.mem_of_find?_eq_some hfind
    exact .inl ⟨.pins, _, rfl, .pins hs hmem (by simpa using hpins), hp⟩
  | none =>
    have hp := hp.next .pins fun f hf => by
      cases hf with
      | pins hs' hmem hpins =>
        obtain ⟨rfl, rfl⟩ := hs.manifest_eq hs'
        have hfilled := List.find?_eq_none.1 hfind _ hmem
        simp [hpins] at hfilled
    by_cases hnone : manifest.design.verilog = none ∧ manifest.design.edif = none
    · left
      exact ⟨.artifacts, .noArtifact, by simp [hnone], .artifacts hs hnone.1 hnone.2, hp⟩
    · right
      refine ⟨by simpa using hnone, hp.next .artifacts fun f hf => ?_⟩
      cases hf with
      | artifacts hs' hverilog hedif =>
        obtain ⟨rfl, rfl⟩ := hs.manifest_eq hs'
        exact hnone ⟨hverilog, hedif⟩

/-- A manifest is refused for its first flaw, or it passes its checks. -/
theorem checkManifest (hm : manifestPath a h = .ok m) (hp : Passed a h Requirement.reading.rank) :
    (∃ c f, PrecompiledDesign.load h.toView m = .error f ∧ First a h c f) ∨
      ∃ manifest, PrecompiledDesign.load h.toView m = .ok ⟨manifest, m.parent?.getD ⟨""⟩⟩ ∧
        Stated a h m manifest ∧ Passed a h Requirement.patterns.rank := by
  cases hread : h.read m with
  | error e =>
    have hload := load_eq_error_iff.2 (.inl ⟨e, hread, rfl⟩)
    exact .inl ⟨.reading, _, hload, .reading hm hread, hp⟩
  | ok text =>
    have hp := hp.next .reading fun f hf => by
      cases hf with
      | reading hm' hread' =>
        obtain rfl := Except.ok.inj (hm.symm.trans hm')
        cases hread.symm.trans hread'
    have hrefused {f : Failure} (hf : Manifest.parse m text = .error f) :=
      load_eq_error_iff.2 (.inr ⟨text, hread, hf⟩)
    cases hparse : Toml.parse text with
    | none =>
      have hload := hrefused (by rw [Manifest.parse, hparse])
      exact .inl ⟨.grammar, _, hload, .grammar hm hread hparse, hp⟩
    | some d =>
      have hp := hp.next .grammar fun f hf => by
        cases hf with
        | grammar hm' hread' hparse' =>
          obtain rfl := Except.ok.inj (hm.symm.trans hm')
          obtain rfl := Except.ok.inj (hread.symm.trans hread')
          cases hparse.symm.trans hparse'
      cases hdecode : Manifest.decode d with
      | error e =>
        have hload := hrefused (f := ⟨[.parsingManifest m], Cause.ofMismatch d e⟩)
          (by rw [Manifest.parse, hparse]; simp only [hdecode])
        exact .inl ⟨.shape, _, hload, .shape hm hread hparse hdecode, hp⟩
      | ok manifest =>
        have hs : Stated a h m manifest := ⟨hm, text, d, hread, hparse, hdecode⟩
        have hp := hp.next .shape fun f hf => by
          cases hf with
          | shape hm' hread' hparse' hdecode' =>
            obtain rfl := Except.ok.inj (hm.symm.trans hm')
            obtain rfl := Except.ok.inj (hread.symm.trans hread')
            obtain rfl := Option.some.inj (hparse.symm.trans hparse')
            cases hdecode.symm.trans hdecode'
        rcases checkContent hs hp with ⟨c, cause, hfault, hfirst⟩ | ⟨hfault, hp⟩
        · have hload : Manifest.parse m text = .error (Failure.of cause) := by
            rw [Manifest.parse, hparse]
            simp only [hdecode, hfault]
          exact .inl ⟨c, _, hrefused hload, hfirst⟩
        · have hload : Manifest.parse m text = .ok manifest := by
            rw [Manifest.parse, hparse]
            simp only [hdecode, hfault]
          exact .inr ⟨manifest, load_eq_ok hread hload, hs, hp⟩

/-! ### The sources -/

theorem mapM_eq_error {α β ε : Type} {g : α → Except ε β} {as : List α} {e : ε}
    (h : as.mapM g = .error e) : ∃ a ∈ as, g a = .error e := by
  induction as with
  | nil => cases h
  | cons a as ih =>
    rw [List.mapM_cons] at h
    cases ha : g a with
    | error e' =>
      rw [ha] at h
      cases h
      exact ⟨a, List.mem_cons_self, ha⟩
    | ok b =>
      rw [ha] at h
      cases has : as.mapM g with
      | error e' =>
        obtain ⟨a', hmem, ha'⟩ := ih (by rw [has]; rw [has] at h; exact h)
        exact ⟨a', List.mem_cons_of_mem a hmem, ha'⟩
      | ok bs =>
        rw [has] at h
        cases h

theorem filesOf_eq_error_iff {v : View} {base : Path} {pattern : String} :
    v.filesOf base pattern = .error f ↔ ∃ e,
      Glob.PathPattern.parse (base.child pattern).text = .error e ∧
        f = ⟨[.globbing pattern], .pattern e⟩ := by
  rw [View.filesOf]
  cases Glob.PathPattern.parse (base.child pattern).text <;> simp [eq_comm]

/-- The sources are refused for the first pattern that is none, or all patterns are some. -/
theorem checkPatterns (hs : Stated a h m manifest) (hp : Passed a h Requirement.patterns.rank) :
    (∃ c f, PrecompiledDesign.extraSources ⟨manifest, m.parent?.getD ⟨""⟩⟩ h.toView = .error f ∧
        First a h c f) ∨
      ∃ sources, PrecompiledDesign.extraSources ⟨manifest, m.parent?.getD ⟨""⟩⟩ h.toView =
        .ok sources ∧ Passed a h Requirement.synthesizer.rank := by
  rw [PrecompiledDesign.extraSources_eq, View.gather]
  cases hfiles : manifest.design.sources.mapM (h.filesOf (m.parent?.getD ⟨""⟩)) with
  | error f =>
    obtain ⟨pattern, hmem, hf⟩ := mapM_eq_error hfiles
    obtain ⟨e, hparse, rfl⟩ := filesOf_eq_error_iff.1 hf
    exact .inl ⟨.patterns, _, rfl, .patterns hs hmem hparse, hp⟩
  | ok found =>
    refine .inr ⟨_, rfl, hp.next .patterns fun f hf => ?_⟩
    cases hf with
    | patterns hs' hmem hparse =>
      obtain ⟨rfl, rfl⟩ := hs.manifest_eq hs'
      have hrefused := filesOf_eq_error_iff (v := h.toView) |>.2 ⟨_, hparse, rfl⟩
      have hanswer := List.mem_map.2 ⟨_, hmem, hrefused⟩
      rw [mapM_eq_ok_iff.1 hfiles] at hanswer
      simp at hanswer

/-! ### The command -/

/-- A plan is refused for its first flaw, or it passes all checks but the one for a synthesizer. -/
theorem plan_checks (a : BuildArguments) (h : Host) :
    (∃ c f, plan a h = .error f ∧ First a h c f) ∨
      ∃ p m, plan a h = .ok p ∧ Stated a h m p.design.manifest ∧
        chosenMode a (configFor h (projectRoot h m)) = .ok p.options.mode ∧
        Passed a h Requirement.synthesizer.rank := by
  by_cases hmode : ∃ text fault, a.mode = some text ∧ Mode.parse text = .error fault
  · obtain ⟨text, fault, hgiven, hparse⟩ := hmode
    refine .inl ⟨.argumentMode, _, ?_, .argumentMode hgiven hparse, Passed.zero⟩
    rw [plan, hgiven]
    simp only [hparse]
    rfl
  have hmode : ∀ text fault, a.mode = some text → Mode.parse text ≠ .error fault :=
    fun text fault hgiven hparse => hmode ⟨text, fault, hgiven, hparse⟩
  have hp : Passed a h Requirement.location.rank := Passed.zero.next .argumentMode fun f hf => by
    cases hf with
    | argumentMode hgiven hparse => exact hmode _ _ hgiven hparse
  rw [plan_eq hmode]
  by_cases hgone : h.tree.lookup h.directory ≠ some .directory
  · refine .inl ⟨.location, _, ?_, .location hgone, hp⟩
    rw [manifestPath_of_gone hgone]
    rfl
  have hthere := not_not.1 hgone
  have hp := hp.next .location fun f hf => by
    cases hf with
    | location hgone' => exact hgone hgone'
  cases hm : manifestPath a h with
  | error f =>
    obtain ⟨hgiven, hnone⟩ := (manifestPath_eq_error_iff hthere).1 hm
    obtain ⟨hall, rfl⟩ := findManifest_eq_error_iff.1 hnone
    exact .inl ⟨.search, _, rfl, .search hgiven hall, hp⟩
  | ok m =>
    have hp := hp.next .search fun f hf => by
      cases hf with
      | search hgiven hall =>
        have hnone := findManifest_eq_error_iff.2 ⟨hall, rfl⟩
        cases hm.symm.trans ((manifestPath_eq_error_iff hthere).2 ⟨hgiven, hnone⟩)
    cases hchosen : chosenMode a (configFor h (projectRoot h m)) with
    | error f =>
      obtain ⟨hgiven, text, fault, hconfig, hparse, rfl⟩ :=
        (chosenMode_eq_error_iff hmode).1 hchosen
      refine .inl ⟨.configuredMode, _, ?_, .configuredMode hgiven hm hconfig hparse, hp⟩
      simp only [bind, Except.bind, hchosen]
    | ok mode =>
      have hp := hp.next .configuredMode fun f hf => by
        cases hf with
        | configuredMode hgiven hm' hconfig hparse =>
          obtain rfl := Except.ok.inj (hm.symm.trans hm')
          cases hchosen.symm.trans
            ((chosenMode_eq_error_iff hmode).2 ⟨hgiven, _, _, hconfig, hparse, rfl⟩)
      simp only [bind, Except.bind, hchosen]
      rcases checkManifest hm hp with ⟨c, f, hload, hfirst⟩ | ⟨manifest, hload, hs, hp⟩
      · exact .inl ⟨c, f, by rw [hload], hfirst⟩
      · rw [hload]
        rcases checkPatterns hs hp with ⟨c, f, hsources, hfirst⟩ | ⟨sources, hsources, hp⟩
        · exact .inl ⟨c, f, by simp only [hsources], hfirst⟩
        · simp only [hsources]
          exact .inr ⟨_, m, rfl, hs, hchosen, hp⟩

/-- A command is refused for its first flaw, or it has none. -/
theorem runBuild_checks (tools : Tools) (a : BuildArguments) (h : Host) :
    (∃ c f, runBuild tools a h = (failed f, h) ∧ First a h c f) ∨ ∀ c f, ¬ Flaw a h c f := by
  rcases plan_checks a h with ⟨c, f, hplan, hfirst⟩ | ⟨p, m, hplan, hs, hchosen, hp⟩
  · exact .inl ⟨c, f, by rw [runBuild, hplan], hfirst⟩
  by_cases hlacks : p.options.mode = .mist ∧ p.design.manifest.synthesizer = none
  · left
    obtain ⟨hmist, hnone⟩ := hlacks
    refine ⟨.synthesizer, Failure.of .noSynthesizer, ?_, .synthesizer hs ?_ hnone, hp⟩
    · have hequipped : (equipment tools p.design).synthesizer.isNone := by
        rw [equipment, PrecompiledDesign.synthesizer?, hnone]
        rfl
      have hrefused : Build.prepare p.options (equipment tools p.design) h =
          .error (Failure.of .noSynthesizer) := if_pos ⟨hmist, hequipped⟩
      rw [runBuild, hplan]
      dsimp only
      rw [Build.run_of_refused hrefused]
      rfl
    · rw [hchosen, hmist]
  · right
    intro c f hf
    have hlast := hp c f hf
    cases hf with
    | synthesizer hs' hmist hnone =>
      obtain ⟨rfl, rfl⟩ := hs.manifest_eq hs'
      exact hlacks ⟨Except.ok.inj (hchosen.symm.trans hmist), hnone⟩
    | _ => simp [Requirement.rank] at hlast

theorem First.eq {c' : Requirement} {f' : Failure} (hfirst : First a h c' f') (hf : Flaw a h c f)
    (hmode : c = .argumentMode ∨ c = .configuredMode) : f' = f := by
  obtain ⟨hflaw, hpassed⟩ := hfirst
  have hle := hpassed c f hf
  rcases hmode with rfl | rfl
  · cases hf with
    | argumentMode hgiven hparse =>
      cases hflaw with
      | argumentMode hgiven' hparse' =>
        obtain rfl := Option.some.inj (hgiven.symm.trans hgiven')
        rw [Except.error.inj (hparse.symm.trans hparse')]
      | _ => simp [Requirement.rank] at hle
  · cases hf with
    | configuredMode hgiven hm hconfig hparse =>
      cases hflaw with
      | argumentMode hgiven' => cases hgiven.symm.trans hgiven'
      | location hgone => exact absurd (there_of_manifestPath hm) hgone
      | search hgiven' hall =>
        have hnone := findManifest_eq_error_iff.2 ⟨hall, rfl⟩
        cases hm.symm.trans
          ((manifestPath_eq_error_iff (there_of_manifestPath hm)).2 ⟨hgiven', hnone⟩)
      | configuredMode _ hm' hconfig' hparse' =>
        obtain rfl := Except.ok.inj (hm.symm.trans hm')
        obtain rfl := Option.some.inj (hconfig.symm.trans hconfig')
        rw [Except.error.inj (hparse.symm.trans hparse')]
      | _ => simp [Requirement.rank] at hle

end

/-- **A command with a flaw is refused for the first one**, and nothing has been done. -/
theorem run_refuses {tools : Tools} {arguments : List String} {h : Host} {a : BuildArguments}
    {c : Requirement} {f : Failure}
    (hparse : parse (h.environment.lookup "XILINX_ISE_PATH") arguments = .ok (.build a))
    (hf : Flaw a h c f) :
    ∃ c' f', Flaw a h c' f' ∧ (∀ c'' f'', Flaw a h c'' f'' → c'.rank ≤ c''.rank) ∧
      (c = .argumentMode ∨ c = .configuredMode → f' = f) ∧
      run tools arguments h = (failed f', h) ∧ (failed f').code = 1 := by
  rcases runBuild_checks tools a h with ⟨c', f', hrun, hfirst⟩ | hnone
  · have hanswer : run tools arguments h = (failed f', h) := by
      simp only [run, hparse]
      exact hrun
    exact ⟨c', f', hfirst.flaw, hfirst.passed, hfirst.eq hf, hanswer, hfirst.flaw.exitCode_eq⟩
  · exact absurd hf (hnone c f)

/-- A project whose manifest is no document, with a mode in its configuration that is none. -/
def tornProject : Host :=
  Host.start ⟨(FileTree.empty.plant ["p", "Isebuild.toml"] (.file (.text "[design") false)).plant
    ["p", ".isebuild", "config.toml"] (.file (.text "[build]\nmode = \"vivado\"\n") false),
    ["p"]⟩ []

def bareArguments : BuildArguments :=
  ⟨none, none, none, none, none, false, false, .human⟩

theorem manifestPath_tornProject :
    manifestPath bareArguments tornProject = .ok ⟨"/p/Isebuild.toml"⟩ :=
  eq_ok_of_toOption (by decide +kernel)

theorem configured_tornProject : Flaw bareArguments tornProject .configuredMode
    (Failure.of (.fault (.invalidMode "vivado"))) := by
  have hmode : (configFor tornProject (projectRoot tornProject ⟨"/p/Isebuild.toml"⟩)).build.mode =
      some "vivado" := by
    decide +kernel
  exact .configuredMode rfl manifestPath_tornProject hmode rfl

theorem grammar_tornProject : Flaw bareArguments tornProject .grammar
    ⟨[.parsingManifest ⟨"/p/Isebuild.toml"⟩], .notToml⟩ := by
  have hread : tornProject.read ⟨"/p/Isebuild.toml"⟩ = .ok "[design" :=
    eq_ok_of_toOption (by decide +kernel)
  exact .grammar manifestPath_tornProject hread (by decide +kernel)

/-- The mode is reported, and the manifest, which is no document, is not. -/
theorem refuses_tornProject :
    run Build.quiet ["build"] tornProject =
      (failed (Failure.of (.fault (.invalidMode "vivado"))), tornProject) ∧
    ∃ f, Flaw bareArguments tornProject .grammar f := by
  have hparse : parse (tornProject.environment.lookup "XILINX_ISE_PATH") ["build"] =
      .ok (.build bareArguments) := by
    decide +kernel
  obtain ⟨c, f, -, -, hmode, hrun, -⟩ := run_refuses hparse configured_tornProject
  rw [hmode (.inr rfl)] at hrun
  exact ⟨hrun, _, grammar_tornProject⟩

end FpgaFlow.Command
