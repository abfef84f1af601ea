import Mathlib
import FpgaFlow.Proofs.Schema.Records

/-!
# Layers of configuration

A configuration is what it says about the twelve settings (`Config.ext_get`), and one configuration
merged over another is looked up setting by setting: the upper one is asked first
(`Config.get_merge`).  All laws of merging follow from these two.

**Main statement** (`Config.layers_last_wins`): merging is associative, with the configuration that
sets nothing on both sides, and a layer can be repeated.  Of any number of layers each setting has
what the last one says that sets it, and so do the options of the tools.  A file that no
configuration can be loaded from (`View.Unusable`) makes no difference to the layers around it.
-/

namespace FpgaFlow

/-! ### Settings -/

/-- The tools that have options, and the commands at the end of the control script. -/
inductive ToolOption where
  | xst | ngdbuild | map | par | bitgen | commands
  deriving DecidableEq

/-- The settings, by what they are set to. -/
inductive Setting : Type → Type where
  | installRoot : Setting Path
  | source : Setting Bool
  | directory : Setting Path
  | name : Setting String
  | mode : Setting String
  | run : Setting Bool
  | option (t : ToolOption) : Setting String

namespace ToolOption

/-- The key of the option in a document. -/
def key : ToolOption → String
  | xst => "xst"
  | ngdbuild => "ngdbuild"
  | map => "map"
  | par => "par"
  | bitgen => "bitgen"
  | commands => "commands"

/-- What a configuration says about the option. -/
def setting (s : OptionSettings) : ToolOption → Option String
  | xst => s.xst
  | ngdbuild => s.ngdbuild
  | map => s.map
  | par => s.par
  | bitgen => s.bitgen
  | commands => s.commands

/-- What the tool is given. -/
def value (o : ToolOptions) : ToolOption → String
  | xst => o.xst
  | ngdbuild => o.ngdbuild
  | map => o.map
  | par => o.par
  | bitgen => o.bitgen
  | commands => o.commands

end ToolOption

namespace Setting

variable {α : Type}

/-- The table of a document that the setting is in. -/
def table : Setting α → String
  | installRoot | source => "toolchain"
  | directory | name | mode | run => "build"
  | option _ => "options"

/-- The key of the setting in its table. -/
def key : Setting α → String
  | installRoot => "ise_path"
  | source => "source"
  | directory => "build_dir"
  | name => "build_name"
  | mode => "mode"
  | run => "run"
  | option t => t.key

/-- What the values of the setting look like in a document. -/
def form : Setting α → Schema.Form
  | source | run => .optional .bool
  | _ => .optional .text

end Setting

namespace Config

variable {α : Type}

/-- What a configuration says about a setting. -/
def get (c : Config) : Setting α → Option α
  | .installRoot => c.toolchain.installRoot
  | .source => c.toolchain.source
  | .directory => c.build.directory
  | .name => c.build.name
  | .mode => c.build.mode
  | .run => c.build.run
  | .option t => t.setting c.options

theorem ext_options {s t : OptionSettings} (h : ∀ o : ToolOption, o.setting s = o.setting t) :
    s = t := by
  cases s
  cases t
  rw [OptionSettings.mk.injEq]
  exact ⟨h .xst, h .ngdbuild, h .map, h .par, h .bitgen, h .commands⟩

/-- A configuration is what it says about the settings. -/
theorem ext_get {c d : Config} (h : ∀ {α : Type} (s : Setting α), c.get s = d.get s) : c = d := by
  obtain ⟨⟨_, _⟩, ⟨_, _, _, _⟩, _⟩ := c
  obtain ⟨⟨_, _⟩, ⟨_, _, _, _⟩, _⟩ := d
  simp only [mk.injEq, ToolchainSettings.mk.injEq, BuildSettings.mk.injEq]
  exact ⟨⟨h .installRoot, h .source⟩, ⟨h .directory, h .name, h .mode, h .run⟩,
    ext_options fun o => h (.option o)⟩

@[simp] theorem get_empty (s : Setting α) : empty.get s = none := by
  cases s with
  | option t => cases t <;> rfl
  | _ => rfl

/-- **The upper configuration is asked first.** -/
@[simp] theorem get_merge (c upper : Config) (s : Setting α) :
    (c.merge upper).get s = (upper.get s <|> c.get s) := by
  cases s with
  | option t => cases t <;> rfl
  | _ => rfl

theorem value_toolOptions (c : Config) (t : ToolOption) :
    t.value c.toolOptions = (c.get (.option t)).getD (t.value {}) := by
  cases t <;> rfl

/-! ### The laws of merging -/

theorem merge_assoc (a b c : Config) : (a.merge b).merge c = a.merge (b.merge c) := by
  refine ext_get fun s => ?_
  simp only [get_merge]
  cases c.get s <;> rfl

theorem empty_merge (a : Config) : empty.merge a = a := by
  refine ext_get fun s => ?_
  rw [get_merge, get_empty]
  cases a.get s <;> rfl

theorem merge_empty (a : Config) : a.merge .empty = a := by
  refine ext_get fun s => ?_
  rw [get_merge, get_empty]
  rfl

/-- A layer can be repeated. -/
theorem merge_merge_self (a b : Config) : (a.merge b).merge b = a.merge b := by
  refine ext_get fun s => ?_
  simp only [get_merge]
  cases b.get s <;> rfl

/-! ### Any number of layers -/

/-- The layers put over each other, the first one lowest. -/
def mergeAll (layers : List Config) : Config :=
  layers.foldl merge .empty

theorem mergeAll_concat (layers : List Config) (c : Config) :
    mergeAll (layers ++ [c]) = (mergeAll layers).merge c := by
  rw [mergeAll, List.foldl_concat]
  rfl

/-- **The last layer that sets a setting decides.** -/
theorem get_mergeAll (layers : List Config) (s : Setting α) :
    (mergeAll layers).get s = (layers.filterMap fun c => c.get s).getLast? := by
  induction layers using List.reverseRecOn with
  | nil => exact get_empty s
  | append_singleton layers c ih =>
    rw [mergeAll_concat, get_merge, ih, List.filterMap_append, List.getLast?_append,
      List.filterMap_cons]
    cases c.get s <;> rfl

/-- A layer that sets nothing can be left out. -/
theorem mergeAll_append_empty_cons (before after : List Config) :
    mergeAll (before ++ .empty :: after) = mergeAll (before ++ after) := by
  rw [mergeAll, List.foldl_append, List.foldl_cons, merge_empty, ← List.foldl_append]
  rfl

end Config

/-! ### Layers in files -/

/-- A value that does not fit a field keeps the whole record from fitting. -/
theorem Schema.Form.not_fits_record {lists : Option Schema.Surplus} {fields : List Schema.Field}
    {f : Schema.Field} {entries : List (String × Datum)} {x : Datum} (hf : f ∈ fields)
    (hx : (f.name, x) ∈ entries) (h : ¬ f.form.Fits x) :
    ¬ (record lists fields).Fits (.map entries) := by
  intro hfits
  exact h (hfits.1 f hf x hx)

namespace Config

/-- A document that gives some setting a value of another kind. -/
def IllTyped (d : Datum) : Prop :=
  ∃ (α : Type) (s : Setting α) (tables entries : List (String × Datum)) (x : Datum),
    d = .map tables ∧ (s.table, .map entries) ∈ tables ∧ (s.key, x) ∈ entries ∧ ¬ s.form.Fits x

/-- Every setting is a field of a table. -/
theorem exists_fields (s : Setting α) :
    ∃ entries absence, ⟨s.table, .record (some .passed) entries, absence⟩ ∈ fields .passed ∧
      ⟨s.key, s.form, .filled .null⟩ ∈ entries := by
  cases s with
  | installRoot => exact ⟨_, _, .head _, .head _⟩
  | source => exact ⟨_, _, .head _, .tail _ (.head _)⟩
  | directory => exact ⟨_, _, .tail _ (.head _), .head _⟩
  | name => exact ⟨_, _, .tail _ (.head _), .tail _ (.head _)⟩
  | mode => exact ⟨_, _, .tail _ (.head _), .tail _ (.tail _ (.head _))⟩
  | run => exact ⟨_, _, .tail _ (.head _), .tail _ (.tail _ (.tail _ (.head _)))⟩
  | option t =>
    have hkey : t.key ∈ ["xst", "ngdbuild", "map", "par", "bitgen", "commands"] := by
      cases t <;> decide
    exact ⟨_, _, .tail _ (.tail _ (.head _)), List.mem_map.2 ⟨t.key, hkey, rfl⟩⟩

theorem not_fits_of_illTyped {d : Datum} (h : IllTyped d) : ¬ (form .passed).Fits d := by
  obtain ⟨α, s, tables, entries, x, rfl, htable, hx, hfits⟩ := h
  obtain ⟨_, _, hfields, hfield⟩ := exists_fields s
  exact Schema.Form.not_fits_record hfields htable (Schema.Form.not_fits_record hfield hx hfits)

/-- A text is a configuration if it writes a document that has the form of one. -/
theorem exists_parse_eq_ok_iff {p : Path} {text : String} :
    (∃ c, parse p text = .ok c) ↔ ∃ d, Toml.parse text = some d ∧ (form .passed).Fits d := by
  cases hd : Toml.parse text with
  | none => simp [parse, hd]
  | some d =>
    have hdecode : (∃ c, decode .passed d = .ok c) ↔ (form .passed).Fits d :=
      (faithful .passed).accepts d
    simp only [parse, hd, Option.some.injEq, exists_eq_left', ← hdecode]
    cases decode .passed d <;> simp [Except.mapError]

end Config

namespace View

variable {v : View} {p : Path}

/-- A file that no configuration can be loaded from. -/
inductive Unusable (v : View) (p : Path) : Prop
  | unreadable {e : IoError} : v.read p = .error e → Unusable v p
  | notToml {text : String} : v.read p = .ok text → Toml.parse text = none → Unusable v p
  | unfit {text : String} {d : Datum} : v.read p = .ok text → Toml.parse text = some d →
    ¬ (Config.form .passed).Fits d → Unusable v p

theorem unusable_iff : v.Unusable p ↔ ¬ ∃ c, v.loadConfig p = .ok c := by
  cases hread : v.read p with
  | error e =>
    have hload : ¬ ∃ c, v.loadConfig p = .ok c := by
      rw [loadConfig, hread]
      rintro ⟨c, hc⟩
      cases hc
    exact ⟨fun _ => hload, fun _ => .unreadable hread⟩
  | ok text =>
    have hload : v.loadConfig p = Config.parse p text := by rw [loadConfig, hread]
    rw [hload, Config.exists_parse_eq_ok_iff]
    constructor
    · intro h ⟨d, hd, hfits⟩
      cases h with
      | unreadable hno =>
        rw [hread] at hno
        cases hno
      | notToml htext hno =>
        obtain rfl := Except.ok.inj (hread.symm.trans htext)
        rw [hd] at hno
        cases hno
      | unfit htext hd' hno =>
        obtain rfl := Except.ok.inj (hread.symm.trans htext)
        obtain rfl := Option.some.inj (hd.symm.trans hd')
        exact hno hfits
    · intro h
      cases hd : Toml.parse text with
      | none => exact .notToml hread hd
      | some d => exact .unfit hread hd fun hfits => h ⟨d, hd, hfits⟩

theorem unusable_of_not_exists (h : v.exists_ p = false) : v.Unusable p := by
  cases hfind : v.find p with
  | ok entry =>
    rw [exists_, hfind] at h
    cases h
  | error e => exact .unreadable (by rw [read, hfind]; rfl)

/-- **A file that no configuration can be loaded from is a layer that sets nothing.** -/
theorem Unusable.configLayer (h : v.Unusable p) : v.configLayer p = .empty := by
  cases hc : v.loadConfig p with
  | ok c => exact absurd ⟨c, hc⟩ (unusable_iff.1 h)
  | error f => rw [View.configLayer, hc]

theorem configLayers_eq (v : View) (ps : List Path) :
    v.configLayers ps = Config.mergeAll (ps.map v.configLayer) := by
  rw [configLayers, Config.mergeAll, List.foldl_map]

/-- Such a file can be left out of any layers. -/
theorem Unusable.configLayers (h : v.Unusable p) (before after : List Path) :
    v.configLayers (before ++ p :: after) = v.configLayers (before ++ after) := by
  simp only [configLayers_eq, List.map_append, List.map_cons, h.configLayer,
    Config.mergeAll_append_empty_cons]

end View

/-- **Of any number of layers the last one that sets a setting decides, and a layer that does not
load is none.** -/
theorem Config.layers_last_wins :
    ((∀ a b c : Config, (a.merge b).merge c = a.merge (b.merge c)) ∧
      (∀ a : Config, Config.empty.merge a = a ∧ a.merge .empty = a) ∧
      ∀ a b : Config, (a.merge b).merge b = a.merge b) ∧
    (∀ (layers : List Config) {α : Type} (s : Setting α),
      (mergeAll layers).get s = (layers.filterMap fun c => c.get s).getLast?) ∧
    (∀ (layers : List Config) (t : ToolOption), t.value (mergeAll layers).toolOptions =
      ((layers.filterMap fun c => c.get (.option t)).getLast?).getD (t.value {})) ∧
    ∀ v : View,
      (∀ ps, v.configLayers ps = mergeAll (ps.map v.configLayer)) ∧
      (∀ p, (∃ c, v.loadConfig p = .ok c ∧ v.configLayer p = c) ∨ v.Unusable p) ∧
      (∀ p, v.exists_ p = false → v.Unusable p) ∧
      (∀ p text d, v.read p = .ok text → Toml.parse text = some d → IllTyped d → v.Unusable p) ∧
      ∀ before p after, v.Unusable p →
        v.configLayers (before ++ p :: after) = v.configLayers (before ++ after) := by
  refine ⟨⟨merge_assoc, fun a => ⟨empty_merge a, merge_empty a⟩, merge_merge_self⟩,
    fun layers _ s => get_mergeAll layers s, fun layers t => ?_, fun v => ⟨v.configLayers_eq,
      fun p => ?_, fun p => View.unusable_of_not_exists, fun p text d htext hd hill => ?_,
      fun before p after h => h.configLayers before after⟩⟩
  · rw [value_toolOptions, get_mergeAll]
  · by_cases hload : ∃ c, v.loadConfig p = .ok c
    · obtain ⟨c, hc⟩ := hload
      exact .inl ⟨c, hc, by rw [View.configLayer, hc]⟩
    · exact .inr (View.unusable_iff.2 hload)
  · exact .unfit htext hd (not_fits_of_illTyped hill)

/-- The text of a layer with a switch that is set to a word. -/
def wordySwitchText : String :=
  "[build]\nbuild_name = \"blink\"\nrun = \"no\"\n"

/-- A user with a layer, and a project whose layer has a switch that is set to a word. -/
def wordySwitch : View :=
  ⟨(FileTree.empty.plant ["u.toml"] (.file (.text
    "[build]\nmode = \"edif\"\n[options]\npar = \"-w\"\n") false)).plant
    ["p.toml"] (.file (.text wordySwitchText) false), []⟩

theorem parse_wordySwitchText : Toml.parse wordySwitchText =
    some (.map [("build", .map [("build_name", .text "blink"), ("run", .text "no")])]) := by
  cbv

/-- The layer of the project does not even set the name. -/
theorem Config.layers_wordySwitch :
    wordySwitch.configLayers [⟨"u.toml"⟩, ⟨"p.toml"⟩, ⟨"none.toml"⟩] =
      wordySwitch.configLayers [⟨"u.toml"⟩] := by
  obtain ⟨-, -, -, hfiles⟩ := Config.layers_last_wins
  obtain ⟨-, -, habsent, hill, hskip⟩ := hfiles wordySwitch
  have hproject : wordySwitch.Unusable ⟨"p.toml"⟩ :=
    hill ⟨"p.toml"⟩ wordySwitchText _ (by decide +kernel) parse_wordySwitchText
      ⟨_, .run, _, _, _, rfl, .head _, .tail _ (.head _), by rintro (h | ⟨b, h⟩) <;> cases h⟩
  have hnone : wordySwitch.Unusable ⟨"none.toml"⟩ := habsent _ (by decide +kernel)
  exact (hskip [⟨"u.toml"⟩] _ [⟨"none.toml"⟩] hproject).trans (hskip [⟨"u.toml"⟩] _ [] hnone)

end FpgaFlow
