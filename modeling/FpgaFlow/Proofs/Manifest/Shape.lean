import FpgaFlow.Manifest
import FpgaFlow.Proofs.Schema.Shape
import FpgaFlow.Proofs.Tree.Growth
import FpgaFlow.Ucf
import Mathlib.Data.String.Basic
import Mathlib.Order.Compare

/-!
# The keys of a manifest

`Manifest.shape` lists the keys that a manifest has, table by table.

**Main statement** `agree_decode`: a manifest without the keys that are not listed is the same
manifest, but for the attributes that its signals carry for other toolchains, and it is refused in
the same words.
-/

namespace FpgaFlow

open Schema

/-! ### Shapes -/

def DesignSection.fields : List (String × Shape) :=
  [("device", .leaf), ("verilog", .leaf), ("edif", .leaf), ("sources", .items .leaf),
    ("include_dirs", .items .leaf)]

def SignalEntry.fields : List (String × Shape) :=
  [("name", .leaf), ("pins", .items .leaf), ("resource", .leaf), ("index", .leaf),
    ("subsignal", .leaf), ("iostandard", .leaf), ("drive", .leaf), ("misc", .items .leaf)]

def ClockEntry.fields : List (String × Shape) :=
  [("name", .leaf), ("period", .leaf)]

def SynthesizerSection.fields : List (String × Shape) :=
  [("program", .leaf), ("args", .items .leaf)]

/-- The fields of a primitive, next to its kind. -/
def PrimitiveKind.fields : PrimitiveKind → List (String × Shape)
  | noRetiming => [("reg", .leaf)]
  | multiReg =>
    [("input", .leaf), ("output", .leaf), ("odomain", .leaf), ("stages", .leaf), ("width", .leaf)]

/-- The fields that a kind has by its name. -/
def Primitive.variants : List (String × List (String × Shape)) :=
  PrimitiveKind.byName.map fun (name, kind) => (name, kind.fields)

def Primitive.shape : Shape := .tagged "kind" Primitive.variants

def Manifest.fields : List (String × Shape) :=
  [("design", .record DesignSection.fields), ("signal", .items (.record SignalEntry.fields)),
    ("clock", .items (.record ClockEntry.fields)), ("platform_commands", .items .leaf),
    ("primitive", .items Primitive.shape), ("mist", .record SynthesizerSection.fields)]

/-- The keys of a manifest. -/
def Manifest.shape : Shape := .record Manifest.fields

/-! ### Sections -/

theorem reads_texts : Reads (.items .leaf) (listOf text) Eq :=
  (plain_text.reads .leaf).listOf_eq

theorem reads_paths : Reads (.items .leaf) (listOf path) Eq :=
  (plain_path.reads .leaf).listOf_eq

theorem plain_device : Plain Device.decode := ⟨_, fun _ => rfl, fun _ => rfl⟩

theorem ruled_designSection : Ruled DesignSection.fields
    [("device", fits Device.decode), ("verilog", fits (optional path)),
      ("edif", fits (optional path)), ("sources", fits (listOf text)),
      ("include_dirs", fits (listOf path))] :=
  .cons (plain_device.reads _).fits <| .cons (plain_path.reads _).optional.fits <|
    .cons (plain_path.reads _).optional.fits <| .cons reads_texts.fits <|
    .cons reads_paths.fits .nil

theorem reads_designSection : Reads (.record DesignSection.fields) DesignSection.decode Eq := by
  intro d hd
  refine (agree_members DesignSection.fields (by decide) .passed "struct DesignSection"
    hd).bind fun m m' hm => ?_
  refine (hm.check ruled_designSection).bind fun _ _ _ => ?_
  refine (hm.required rfl (plain_device.reads _)).bind fun device _ h₁ => ?_
  refine (hm.optional rfl (plain_path.reads _)).bind fun verilog _ h₂ => ?_
  refine (hm.optional rfl (plain_path.reads _)).bind fun edif _ h₃ => ?_
  refine (hm.withDefault rfl reads_texts rfl).bind fun sources _ h₄ => ?_
  refine (hm.withDefault rfl reads_paths rfl).bind fun includes _ h₅ => ?_
  subst h₁ h₂ h₃ h₄ h₅
  exact .refl _

theorem reads_clock : Reads (.record ClockEntry.fields) ClockEntry.decode Eq := by
  intro d hd
  have hrules : Ruled ClockEntry.fields [("name", fits text), ("period", fits number)] :=
    .cons (plain_text.reads _).fits <| .cons (plain_number.reads _).fits .nil
  refine (agree_members ClockEntry.fields (by decide) .passed "struct ClockEntry"
    hd).bind fun m m' hm => ?_
  refine (hm.check hrules).bind fun _ _ _ => ?_
  refine (hm.required rfl (plain_text.reads _)).bind fun name _ h₁ => ?_
  refine (hm.required rfl (plain_number.reads _)).bind fun period _ h₂ => ?_
  subst h₁ h₂
  exact .refl _

theorem reads_synthesizer :
    Reads (.record SynthesizerSection.fields) SynthesizerSection.decode Eq := by
  intro d hd
  have hrules : Ruled SynthesizerSection.fields
      [("program", fits path), ("args", fits (listOf text))] :=
    .cons (plain_path.reads _).fits <| .cons reads_texts.fits .nil
  refine (agree_members SynthesizerSection.fields (by decide) .passed "struct MistSection"
    hd).bind fun m m' hm => ?_
  refine (hm.check hrules).bind fun _ _ _ => ?_
  refine (hm.required rfl (plain_path.reads _)).bind fun program _ h₁ => ?_
  refine (hm.withDefault rfl reads_texts rfl).bind fun arguments _ h₂ => ?_
  subst h₁ h₂
  exact .refl _

/-! ### Primitives -/

/-- A primitive of a known kind. -/
theorem reads_primitiveAs (kind : PrimitiveKind) :
    Reads (.record kind.fields) (Primitive.decodeAs kind) Eq := by
  intro d hd
  cases kind with
  | noRetiming =>
    have hrules : Ruled (PrimitiveKind.fields .noRetiming) [("reg", fits text)] :=
      .cons (plain_text.reads _).fits .nil
    refine (agree_members (PrimitiveKind.fields .noRetiming) (by decide) .counted
      "struct variant LoweringRequest::NoRetiming" hd).bind fun m m' hm => ?_
    refine (hm.check hrules).bind fun _ _ _ => ?_
    refine (hm.required rfl (plain_text.reads _)).bind fun reg _ h₁ => ?_
    subst h₁
    exact .refl _
  | multiReg =>
    have hrules : Ruled (PrimitiveKind.fields .multiReg)
        [("input", fits text), ("output", fits text), ("odomain", fits text),
          ("stages", fits word64), ("width", fits word32)] :=
      .cons (plain_text.reads _).fits <| .cons (plain_text.reads _).fits <|
        .cons (plain_text.reads _).fits <| .cons (plain_word64.reads _).fits <|
        .cons (plain_word32.reads _).fits .nil
    refine (agree_members (PrimitiveKind.fields .multiReg) (by decide) .counted
      "struct variant LoweringRequest::MultiReg" hd).bind fun m m' hm => ?_
    refine (hm.check hrules).bind fun _ _ _ => ?_
    refine (hm.required rfl (plain_text.reads _)).bind fun input _ h₁ => ?_
    refine (hm.required rfl (plain_text.reads _)).bind fun output _ h₂ => ?_
    refine (hm.required rfl (plain_text.reads _)).bind fun domain _ h₃ => ?_
    refine (hm.withDefault rfl (plain_word64.reads _) rfl).bind fun stages _ h₄ => ?_
    refine (hm.withDefault rfl (plain_word32.reads _) rfl).bind fun width _ h₅ => ?_
    subst h₁ h₂ h₃ h₄ h₅
    exact .refl _

theorem plain_kind : Plain Primitive.decodeKind := ⟨_, fun _ => rfl, fun _ => rfl⟩

/-- The fields of a kind are those that its tag stands for. -/
theorem chosen_of_decodeKind {tag : Datum} {kind : PrimitiveKind}
    (h : Primitive.decodeKind tag = .ok kind) :
    Shape.chosen Primitive.variants tag = kind.fields := by
  cases tag with
  | text s =>
    rw [Primitive.decodeKind] at h
    cases hname : PrimitiveKind.byName.lookup s with
    | none =>
      rw [hname] at h
      cases h
    | some kind' =>
      rw [hname] at h
      obtain rfl : kind' = kind := Except.ok.inj h
      have hnodup : (Primitive.variants.map Prod.fst).Nodup := by decide
      have hmem : (s, kind'.fields) ∈ Primitive.variants :=
        List.mem_map_of_mem (mem_of_lookup_eq_some hname)
      have hvariant := lookup_of_mem hnodup hmem
      rw [Shape.chosen, hvariant]
      rfl
  | _ => cases h

theorem reads_primitive : Reads Primitive.shape Primitive.decode Eq := by
  intro d hd
  cases d with
  | map entries =>
    have hfields : Primitive.shape.fields entries = ("kind", .leaf) ::
        ((entries.lookup "kind").map (Shape.chosen Primitive.variants)).getD [] := rfl
    rw [Shape.strip, hfields, Primitive.decode, Primitive.decode, Shape.lookup_stripEntries]
    cases htag : entries.lookup "kind" with
    | none => exact .error (.refl _)
    | some tag =>
      have hkind := plain_kind.reads .leaf tag (Toml.onlyMoments_of_lookup hd htag)
      refine hkind.bind_of_eq fun kind _ hok heq => ?_
      subst heq
      simp only [Option.map_some, Option.getD_some, chosen_of_decodeKind hok,
        Shape.filter_stripEntries]
      exact reads_primitiveAs kind _ (Toml.onlyMoments_of_sublist hd List.filter_sublist)
  | list ds =>
    cases ds with
    | nil => exact .refl _
    | cons tag rest =>
      rw [Toml.onlyMoments, Toml.onlyMomentsItems, Bool.and_eq_true] at hd
      have hlater : (fun i => Primitive.shape.item (tag :: rest) (i + 1)) =
          Shape.field (Shape.chosen Primitive.variants tag) := rfl
      rw [Shape.strip, Shape.stripItems, hlater, Primitive.decode, Primitive.decode]
      refine (plain_kind.reads .leaf tag hd.1).bind_of_eq fun kind _ hok heq => ?_
      subst heq
      rw [chosen_of_decodeKind hok]
      exact reads_primitiveAs kind (.list rest) hd.2
  | _ => exact .error fun _ => rfl

/-! ### Signals -/

namespace SignalEntry

/-- A signal without its attributes for other toolchains. -/
def bare (s : SignalEntry) : SignalEntry :=
  { s with others := [] }

/-- The entries with keys that are not known. -/
def unknown (entries : List (String × Datum)) : List (String × Datum) :=
  entries.filter fun e => (SignalEntry.fields.lookup e.1).isNone

/-- An attribute for other toolchains. -/
def otherAttribute (e : String × String) : Attribute :=
  .other e.1 e.2

theorem attributes_eq (s : SignalEntry) :
    s.attributes = s.bare.attributes ++ s.others.map otherAttribute := by
  simp [attributes, bare, otherAttribute]

/-- Attributes for other toolchains have no clauses. -/
theorem filterMap_bare (s : SignalEntry) :
    s.bare.attributes.filterMap Ucf.clause? = s.attributes.filterMap Ucf.clause? := by
  have hnone : (s.others.map otherAttribute).filterMap Ucf.clause? = [] := by
    rw [List.filterMap_eq_nil_iff]
    intro a ha
    obtain ⟨e, -, rfl⟩ := List.mem_map.1 ha
    rfl
  rw [s.attributes_eq, List.filterMap_append, hnone, List.append_nil]

/-- A signal has one attribute for each key that is not known in its table, behind all others and in
ascending order of the keys. -/
structure Carries (d : Datum) (s : SignalEntry) : Prop where
  table : ∃ entries, d = .map entries ∧
    (s.others.map fun e => (e.1, Except.ok e.2)).Perm
      ((unknown entries).map fun e => (e.1, Toml.writtenAlone e.2))
  behind : s.constraint.attributes = s.bare.attributes ++ s.others.map otherAttribute
  before : ∀ a ∈ s.bare.attributes, ∀ e, a ≠ otherAttribute e
  ascending : s.others.Pairwise fun e e' => e.1 ≤ e'.1

theorem ruled_signal : Ruled SignalEntry.fields rules :=
  .cons (plain_text.reads _).fits <| .cons reads_texts.fits <|
    .cons (plain_text.reads _).optional.fits <| .cons (plain_word32.reads _).fits <|
    .cons (plain_text.reads _).optional.fits <| .cons (plain_text.reads _).optional.fits <|
    .cons (plain_word32.reads _).optional.fits <| .cons reads_texts.fits .nil

/-- The entries with keys that are not known, in ascending order of the keys. -/
theorem otherEntries_eq (entries : List (String × Datum)) :
    otherEntries entries = (unknown entries).mergeSort fun a b => decide (a.1 ≤ b.1) := by
  have hknown : ∀ key, (rules.lookup key).isNone = (SignalEntry.fields.lookup key).isNone := by
    intro key
    rcases ruled_signal.lookup key with ⟨hfs, hrules⟩ | ⟨s, rule, hfs, hrules, -⟩
    · rw [hfs, hrules, Option.isNone_none, Option.isNone_none]
    · rw [hfs, hrules, Option.isNone_some, Option.isNone_some]
  have hle : ∀ a b : String, (compare a b != .gt) = decide (a ≤ b) := by
    intro a b
    have hgt : compare a b = .gt ↔ b < a := compare_gt_iff_gt
    rw [Bool.eq_iff_iff, bne_iff_ne, decide_eq_true_iff, Ne, hgt, not_lt]
  simp only [otherEntries, unknown, hknown, hle]

/-- Nothing that is not known is left. -/
theorem unknown_stripEntries (entries : List (String × Datum)) :
    unknown (Shape.stripEntries SignalEntry.fields entries) = [] := by
  rw [unknown, List.filter_eq_nil_iff]
  intro e he hnone
  have hknown := Shape.isSome_of_mem_stripEntries he
  rw [Option.isNone_iff_eq_none.1 hnone] at hknown
  cases hknown

/-- What the entries of a table say for each field of a signal. -/
structure ReadFrom (entries : List (String × Datum)) (s : SignalEntry) : Prop where
  name : Members.required ⟨entries, none, none⟩ "name" text = .ok s.name
  pins : Members.required ⟨entries, none, none⟩ "pins" (listOf text) = .ok s.pins
  resource : Members.optional ⟨entries, none, none⟩ "resource" text = .ok s.resource
  index : Members.withDefault ⟨entries, none, none⟩ "index" 0 word32 = .ok s.index
  subsignal : Members.optional ⟨entries, none, none⟩ "subsignal" text = .ok s.subsignal
  ioStandard : Members.optional ⟨entries, none, none⟩ "iostandard" text = .ok s.ioStandard
  drive : Members.optional ⟨entries, none, none⟩ "drive" word32 = .ok s.drive
  misc : Members.withDefault ⟨entries, none, none⟩ "misc" [] (listOf text) = .ok s.misc
  others : (otherEntries entries).mapM (fun (key, d) => do return (key, ← Toml.writtenAlone d)) =
    .ok s.others

theorem readFrom_of_decode {entries : List (String × Datum)} {s : SignalEntry}
    (h : decode (.map entries) = .ok s) : ReadFrom entries s := by
  unfold decode at h
  obtain ⟨_, -, h⟩ := bind_eq_ok_iff.1 h
  obtain ⟨name, hname, h⟩ := bind_eq_ok_iff.1 h
  obtain ⟨pins, hpins, h⟩ := bind_eq_ok_iff.1 h
  obtain ⟨resource, hresource, h⟩ := bind_eq_ok_iff.1 h
  obtain ⟨index, hindex, h⟩ := bind_eq_ok_iff.1 h
  obtain ⟨subsignal, hsubsignal, h⟩ := bind_eq_ok_iff.1 h
  obtain ⟨ioStandard, hioStandard, h⟩ := bind_eq_ok_iff.1 h
  obtain ⟨drive, hdrive, h⟩ := bind_eq_ok_iff.1 h
  obtain ⟨misc, hmisc, h⟩ := bind_eq_ok_iff.1 h
  obtain ⟨others, hothers, h⟩ := bind_eq_ok_iff.1 h
  obtain rfl := Except.ok.inj h
  exact ⟨hname, hpins, hresource, hindex, hsubsignal, hioStandard, hdrive, hmisc, hothers⟩

theorem exists_others {entries : List (String × Datum)}
    (h : ∀ e ∈ entries, Toml.onlyMoments e.2 = true) :
    ∃ others, entries.mapM (fun (key, d) => do return (key, ← Toml.writtenAlone d)) =
      (.ok others : Except Mismatch (List (String × String))) := by
  induction entries with
  | nil => exact ⟨[], rfl⟩
  | cons e entries ih =>
    obtain ⟨s, hs⟩ := Toml.exists_writtenAlone (h e List.mem_cons_self)
    obtain ⟨others, hothers⟩ := ih fun e' he' => h e' (List.mem_cons_of_mem _ he')
    refine ⟨(e.1, s) :: others, ?_⟩
    rw [List.mapM_cons]
    exact bind_eq_ok_iff.2 ⟨(e.1, s), bind_eq_ok_iff.2 ⟨s, hs, rfl⟩,
      bind_eq_ok_iff.2 ⟨others, hothers, rfl⟩⟩

theorem ascending_mergeSort (entries : List (String × Datum)) :
    (entries.mergeSort fun a b => decide (a.1 ≤ b.1)).Pairwise fun a b => a.1 ≤ b.1 := by
  have htrans : ∀ a b c : String × Datum, decide (a.1 ≤ b.1) = true →
      decide (b.1 ≤ c.1) = true → decide (a.1 ≤ c.1) = true := by
    intro a b c hab hbc
    exact decide_eq_true ((of_decide_eq_true hab).trans (of_decide_eq_true hbc))
  have htotal : ∀ a b : String × Datum,
      (decide (a.1 ≤ b.1) || decide (b.1 ≤ a.1)) = true := by
    intro a b
    rw [Bool.or_eq_true, decide_eq_true_iff, decide_eq_true_iff]
    exact le_total a.1 b.1
  exact (List.pairwise_mergeSort htrans htotal entries).imp fun h => of_decide_eq_true h

/-- The texts of entries are those that are written for them. -/
theorem map_others {entries : List (String × Datum)} {others : List (String × String)}
    (h : entries.mapM (fun (key, d) => do return (key, ← Toml.writtenAlone d)) =
      (.ok others : Except Mismatch (List (String × String)))) :
    others.map (fun e => (e.1, (.ok e.2 : Except Mismatch String))) =
      entries.map fun e => (e.1, Toml.writtenAlone e.2) := by
  rw [mapM_eq_ok_iff] at h
  induction entries generalizing others with
  | nil =>
    cases others with
    | nil => rfl
    | cons e others => cases h
  | cons e entries ih =>
    cases others with
    | nil => cases h
    | cons e' others =>
      rw [List.map_cons, List.map_cons, List.cons.injEq] at h
      obtain ⟨s, hs, he⟩ := bind_eq_ok_iff.1 h.1
      obtain rfl := Except.ok.inj he
      rw [List.map_cons, List.map_cons, ih h.2, hs]

/-- **The keys that are not known are carried along.** -/
theorem carries_of_decode {d : Datum} {s : SignalEntry} (h : decode d = .ok s) :
    s.Carries d := by
  cases d with
  | map entries =>
    have hmap := map_others (readFrom_of_decode h).others
    rw [otherEntries_eq] at hmap
    refine ⟨⟨entries, rfl, ?_⟩, s.attributes_eq, ?_, ?_⟩
    · rw [hmap]
      exact (List.mergeSort_perm _ _).map _
    · intro a ha e heq
      subst heq
      simp [attributes, bare, otherAttribute] at ha
    · have hkeys := congrArg (List.map Prod.fst) hmap
      rw [List.map_map, List.map_map] at hkeys
      have hsorted : (s.others.map Prod.fst).Pairwise (· ≤ ·) := by
        exact hkeys.symm ▸ List.pairwise_map.2 (ascending_mergeSort _)
      exact List.pairwise_map.1 hsorted
  | _ => cases h

/-- **A signal is the same without the keys that are not known, but for what it carries along.** -/
theorem reads_signal :
    Reads (.record SignalEntry.fields) decode fun s s' => s.bare = s'.bare := by
  intro d hd
  cases d with
  | map entries =>
    have hm : Trimmed SignalEntry.fields ⟨entries, none, none⟩ _ := trimmed_of_map hd
    have hmoments : ∀ e ∈ otherEntries entries, Toml.onlyMoments e.2 = true := by
      intro e he
      rw [otherEntries, List.mem_mergeSort, List.mem_filter] at he
      exact Toml.onlyMoments_of_mem hd he.1
    obtain ⟨others, hothers⟩ := exists_others hmoments
    have hfields : (Shape.record SignalEntry.fields).fields entries = SignalEntry.fields := rfl
    have hnone : otherEntries (Shape.stripEntries SignalEntry.fields entries) = [] := by
      rw [otherEntries_eq, unknown_stripEntries, List.mergeSort_nil]
    rw [Shape.strip, hfields, decode, decode]
    refine (hm.check ruled_signal).bind fun _ _ _ => ?_
    refine (hm.required rfl (plain_text.reads _)).bind fun name _ h₁ => ?_
    refine (hm.required rfl reads_texts).bind fun pins _ h₂ => ?_
    refine (hm.optional rfl (plain_text.reads _)).bind fun resource _ h₃ => ?_
    refine (hm.withDefault rfl (plain_word32.reads _) rfl).bind fun index _ h₄ => ?_
    refine (hm.optional rfl (plain_text.reads _)).bind fun subsignal _ h₅ => ?_
    refine (hm.optional rfl (plain_text.reads _)).bind fun ioStandard _ h₆ => ?_
    refine (hm.optional rfl (plain_word32.reads _)).bind fun drive _ h₇ => ?_
    refine (hm.withDefault rfl reads_texts rfl).bind fun misc _ h₈ => ?_
    subst h₁ h₂ h₃ h₄ h₅ h₆ h₇ h₈
    rw [hothers, hnone]
    exact .ok rfl
  | _ => exact .error fun _ => rfl

end SignalEntry

/-! ### Manifests -/

namespace Manifest

/-- A manifest without the attributes for other toolchains. -/
def bare (m : Manifest) : Manifest :=
  { m with signals := m.signals.map SignalEntry.bare }

/-- The tables of the signals in a document. -/
def signalTables : Datum → List Datum
  | .map entries => match entries.lookup "signal" with
    | some (.list ds) => ds
    | _ => []
  | _ => []

theorem reads_signals : Reads (.items (.record SignalEntry.fields)) (listOf SignalEntry.decode)
    fun ss ss' => ss.map SignalEntry.bare = ss'.map SignalEntry.bare := by
  intro d hd
  refine (SignalEntry.reads_signal.listOf d hd).mono fun ss ss' h => ?_
  rw [← List.forall₂_eq_eq_eq, List.forall₂_map_left_iff, List.forall₂_map_right_iff]
  exact h

theorem ruled_manifest : Ruled Manifest.fields
    [("design", fits DesignSection.decode), ("signal", fits (listOf SignalEntry.decode)),
      ("clock", fits (listOf ClockEntry.decode)), ("platform_commands", fits (listOf text)),
      ("primitive", fits (listOf Primitive.decode)),
      ("mist", fits (optional SynthesizerSection.decode))] :=
  .cons reads_designSection.fits <| .cons reads_signals.fits <|
    .cons reads_clock.listOf_eq.fits <| .cons reads_texts.fits <|
    .cons reads_primitive.listOf_eq.fits <| .cons reads_synthesizer.optional.fits .nil

/-- **A manifest is the same without the keys that are not known, but for what its signals carry
along.** -/
theorem reads_manifest : Reads Manifest.shape decode fun m m' => m.bare = m'.bare := by
  intro d hd
  refine (agree_members Manifest.fields (by decide) .passed "struct Manifest"
    hd).bind fun m m' hm => ?_
  refine (hm.check ruled_manifest).bind fun _ _ _ => ?_
  refine (hm.required rfl reads_designSection).bind fun design _ h₁ => ?_
  refine (hm.withDefault rfl reads_signals rfl).bind fun signals signals' h₂ => ?_
  refine (hm.withDefault rfl reads_clock.listOf_eq rfl).bind fun clocks _ h₃ => ?_
  refine (hm.withDefault rfl reads_texts rfl).bind fun commands _ h₄ => ?_
  refine (hm.withDefault rfl reads_primitive.listOf_eq rfl).bind fun primitives _ h₅ => ?_
  refine (hm.withDefault rfl reads_synthesizer.optional rfl).bind fun synthesizer _ h₆ => ?_
  subst h₁ h₃ h₄ h₅ h₆
  refine .ok ?_
  rw [bare, bare, h₂]

/-- **Two manifests that differ only in keys that are not known.** -/
theorem agree_decode {d d' : Datum} (hd : Toml.onlyMoments d = true)
    (hd' : Toml.onlyMoments d' = true) (hstrip : Manifest.shape.strip d = Manifest.shape.strip d') :
    Agree (fun m m' => m.bare = m'.bare) (decode d) (decode d') := by
  have h := reads_manifest d hd
  rw [hstrip] at h
  refine (h.join (reads_manifest d' hd')).mono fun m m' hm => ?_
  obtain ⟨m₀, h₁, h₂⟩ := hm
  exact h₁.trans h₂.symm

/-- The signals of a manifest are read from their tables, one by one. -/
theorem signals_of_decode {entries : List (String × Datum)} {m : Manifest}
    (h : decode (.map entries) = .ok m) :
    List.Forall₂ (fun d s => SignalEntry.decode d = .ok s) (signalTables (.map entries))
      m.signals := by
  obtain ⟨_, hmembers, h⟩ := bind_eq_ok_iff.1 h
  obtain rfl := Except.ok.inj hmembers
  obtain ⟨_, -, h⟩ := bind_eq_ok_iff.1 h
  obtain ⟨design, -, h⟩ := bind_eq_ok_iff.1 h
  obtain ⟨signals, hsignals, h⟩ := bind_eq_ok_iff.1 h
  obtain ⟨clocks, -, h⟩ := bind_eq_ok_iff.1 h
  obtain ⟨commands, -, h⟩ := bind_eq_ok_iff.1 h
  obtain ⟨primitives, -, h⟩ := bind_eq_ok_iff.1 h
  obtain ⟨synthesizer, -, h⟩ := bind_eq_ok_iff.1 h
  obtain rfl := Except.ok.inj h
  rw [Members.withDefault] at hsignals
  rw [signalTables]
  cases htables : entries.lookup "signal" with
  | none =>
    simp only [htables] at hsignals ⊢
    obtain rfl := Except.ok.inj hsignals
    exact .nil
  | some d =>
    simp only [htables] at hsignals ⊢
    cases d with
    | list ds =>
      have hmap := mapM_eq_ok_iff.1 hsignals
      rwa [← List.forall₂_eq_eq_eq, List.forall₂_map_left_iff, List.forall₂_map_right_iff] at hmap
    | _ => cases hsignals

/-- A document is a table. -/
theorem exists_entries_of_parse {text : String} {d : Datum} (h : Toml.parse text = some d) :
    ∃ entries, d = .map entries := by
  rw [Toml.parse] at h
  simp only [Option.bind_eq_bind, Option.bind_eq_some_iff] at h
  obtain ⟨lines, -, es, -, h⟩ := h
  exact ⟨_, (Option.some.inj h).symm⟩

/-- A manifest is written by a text whose table fits, and nothing is wrong with it. -/
theorem of_parse {file : Path} {text : String} {m : Manifest} (h : parse file text = .ok m) :
    ∃ entries, Toml.parse text = some (.map entries) ∧ decode (.map entries) = .ok m ∧
      m.fault? = none := by
  rw [parse] at h
  cases hdocument : Toml.parse text with
  | none =>
    rw [hdocument] at h
    cases h
  | some d =>
    obtain ⟨entries, rfl⟩ := exists_entries_of_parse hdocument
    rw [hdocument] at h
    dsimp only at h
    cases hdecode : decode (.map entries) with
    | error e =>
      simp only [hdecode] at h
      cases h
    | ok m' =>
      simp only [hdecode] at h
      cases hfault : m'.fault? with
      | some cause =>
        simp only [hfault] at h
        cases h
      | none =>
        simp only [hfault] at h
        obtain rfl := Except.ok.inj h
        exact ⟨entries, rfl, hdecode, hfault⟩

end Manifest

end FpgaFlow
