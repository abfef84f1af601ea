import FpgaFlow.Config
import FpgaFlow.Constraint
import FpgaFlow.Fragment
import FpgaFlow.Primitive
import FpgaFlow.Proofs.Schema.Fields
import FpgaFlow.Source

/-!
# The records and their encodings

Every kind of record has a form: its fields in their order, with the form of each and with what
counts when it is left out.  The encodings and the readers follow the forms.

**Main statement** (`records_roundTrip`): encoding and reading are inverse for every kind of
record.
-/

namespace FpgaFlow

open Schema

/-- Two maps that begin with the same key. -/
theorem Datum.map_cons_inj {key : String} {x y : Datum} {es es' : List (String × Datum)} :
    Datum.map ((key, x) :: es) = .map ((key, y) :: es') ↔ x = y ∧ Datum.map es = .map es' := by
  simp

theorem faithful_texts : Faithful (.items .text) Datum.texts (listOf text) :=
  faithful_text.items

theorem faithful_optionalText : Faithful (.optional .text) (Datum.ofOption .text) (optional text) :=
  faithful_text.optional fun _ => by simp

theorem faithful_optionalPath :
    Faithful (.optional .text) (Datum.ofOption fun p : Path => .text p.text) (optional path) :=
  faithful_path.optional fun _ => by simp

theorem faithful_optionalBool : Faithful (.optional .bool) (Datum.ofOption .bool) (optional bool) :=
  faithful_bool.optional fun _ => by simp

/-! ### Attributes -/

namespace Attribute

def otherFields : List Field :=
  [⟨"kind", .text, .refused⟩, ⟨"value", .text, .refused⟩]

/-- The form of what each kind of attribute holds. -/
def forms : List (String × Form) :=
  [("location", .text), ("io_standard", .text), ("drive", .word UInt32.size), ("misc", .text),
    ("other", .record none otherFields)]

def form : Form := .variants forms

theorem follows_other : Follows (.record none otherFields) decodeOther
    fun a n => a.encode = .map [("other", n)] := by
  refine follows_map otherFields
    (fun m => do return .other (← m.required "kind" text) (← m.required "value" text))
    (fun _ => rfl) (fun d a h => ?_) (by decide)
    (.cons faithful_text <| .cons faithful_text .nil) fun m => ?_
  · cases d with
    | map entries => exact ⟨entries, rfl⟩
    | _ => cases h
  · refine Built.required faithful_text rfl fun kind h₁ => ?_
    refine Built.required faithful_text rfl fun value h₂ => ?_
    refine Built.pure ?_
    simp only [encode, h₁, h₂]
    rfl

/-- The readers go by the forms. -/
theorem readers_follow : Variants (fun name x => .map [(name, x)]) forms readers encode :=
  .cons (faithful_text.variant location fun _ => rfl) <|
    .cons (faithful_text.variant ioStandard fun _ => rfl) <|
    .cons (faithful_word32.variant drive fun _ => rfl) <|
    .cons (faithful_text.variant misc fun _ => rfl) <| .cons follows_other .nil

theorem written (a : Attribute) : form.Fits a.encode ∧ form.normal a.encode = a.encode := by
  cases a with
  | location pin => exact written_variants rfl (faithful_text.written pin)
  | ioStandard standard => exact written_variants rfl (faithful_text.written standard)
  | drive strength => exact written_variants rfl (faithful_word32.written strength)
  | misc clause => exact written_variants rfl (faithful_text.written clause)
  | other kind value =>
    have hinner : Inscribed otherFields [("kind", .text kind), ("value", .text value)] :=
      .cons faithful_text kind <| .cons faithful_text value .nil
    exact written_variants rfl (hinner.written (by decide) none)

theorem encode_inj (a b : Attribute) (h : a.encode = b.encode) : a = b := by
  cases a <;> cases b <;>
    simp only [encode, Datum.map.injEq, List.cons.injEq, Prod.mk.injEq, and_true] at h
  case location.location => rw [Datum.text.inj h.2]
  case ioStandard.ioStandard => rw [Datum.text.inj h.2]
  case drive.drive => rw [faithful_word32.encode_injective h.2]
  case misc.misc => rw [Datum.text.inj h.2]
  case other.other => rw [Datum.text.inj h.2.1.2, Datum.text.inj h.2.2.2]
  all_goals exact absurd h.1 (by decide)

/-- Only a map with one known key is an attribute. -/
theorem exists_of_decode {d : Datum} {a : Attribute} (h : decode d = .ok a) :
    ∃ name x, d = .map [(name, x)] ∧ (readers.lookup name).isSome = true := by
  cases d with
  | map entries =>
    match entries, h with
    | [(name, x)], h =>
      refine ⟨name, x, rfl, ?_⟩
      rw [decode] at h
      cases hname : readers.lookup name with
      | none =>
        rw [hname] at h
        cases h
      | some reader => rfl
  | text kind =>
    rw [decode] at h
    split at h <;> cases h
  | _ => cases h

theorem faithful : Faithful form encode decode := by
  refine (follows_chosen readers_follow (fun d name x reader hd hreader => ?_)
    fun d a h => ?_).faithful written encode_inj
  · rw [only_eq_some_iff.1 hd, decode, hreader]
  · obtain ⟨name, x, hd, hname⟩ := exists_of_decode h
    exact ⟨name, x, only_eq_some_iff.2 hd, hname⟩

end Attribute

/-! ### Constraints -/

namespace Resource

def fields : List Field :=
  [⟨"kind", .text, .refused⟩, ⟨"index", .word UInt32.size, .refused⟩,
    ⟨"subindex", .optional .text, .mapped⟩]

def form : Form := .record (some .refused) fields

theorem faithful : Faithful form encode decode := by
  refine faithful_record fields (fun _ => rfl) (by decide)
    (.cons faithful_text <| .cons faithful_word32 <| .cons faithful_optionalText .nil)
    (fun m => ?_)
    (fun r => ⟨_, rfl, .cons faithful_text _ <| .cons faithful_word32 _ <|
      .cons faithful_optionalText _ .nil⟩) fun r r' h => ?_
  · refine Built.required faithful_text rfl fun kind h₁ => ?_
    refine Built.required faithful_word32 rfl fun index h₂ => ?_
    refine Built.optional faithful_optionalText rfl rfl fun subsignal h₃ => ?_
    refine Built.pure ?_
    simp only [encode, h₁, h₂, h₃]
    rfl
  · obtain ⟨kind, index, subsignal⟩ := r
    obtain ⟨kind', index', subsignal'⟩ := r'
    simp only [encode, Datum.map_cons_inj] at h
    obtain ⟨h₁, h₂, h₃, -⟩ := h
    rw [faithful_text.encode_injective h₁, faithful_word32.encode_injective h₂,
      faithful_optionalText.encode_injective h₃]

end Resource

namespace SignalConstraint

def fields : List Field :=
  [⟨"signal", .text, .refused⟩, ⟨"pins", .items .text, .refused⟩,
    ⟨"attributes", .items Attribute.form, .refused⟩, ⟨"resource", Resource.form, .refused⟩]

def form : Form := .record (some .refused) fields

theorem faithful : Faithful form encode decode := by
  refine faithful_record fields (fun _ => rfl) (by decide)
    (.cons faithful_text <| .cons faithful_texts <| .cons Attribute.faithful.items <|
      .cons Resource.faithful .nil)
    (fun m => ?_)
    (fun c => ⟨_, rfl, .cons faithful_text _ <| .cons faithful_texts _ <|
      .cons Attribute.faithful.items _ <| .cons Resource.faithful _ .nil⟩) fun c c' h => ?_
  · refine Built.required faithful_text rfl fun signal h₁ => ?_
    refine Built.required faithful_texts rfl fun pins h₂ => ?_
    refine Built.required Attribute.faithful.items rfl fun attributes h₃ => ?_
    refine Built.required Resource.faithful rfl fun resource h₄ => ?_
    refine Built.pure ?_
    simp only [encode, h₁, h₂, h₃, h₄]
    rfl
  · obtain ⟨signal, pins, attributes, resource⟩ := c
    obtain ⟨signal', pins', attributes', resource'⟩ := c'
    simp only [encode, Datum.map_cons_inj] at h
    obtain ⟨h₁, h₂, h₃, h₄, -⟩ := h
    rw [faithful_text.encode_injective h₁, faithful_texts.encode_injective h₂,
      Attribute.faithful.items.encode_injective h₃, Resource.faithful.encode_injective h₄]

end SignalConstraint

/-! ### Source files and options -/

theorem Language.faithful :
    Faithful (.names ["verilog", "vhdl"]) Language.encode Language.decode :=
  faithful_oneOf [("verilog", Language.verilog), ("vhdl", Language.vhdl)] Language.name
    (fun l => by cases l <;> rfl) fun s l h => by
      have hmem := mem_of_lookup_eq_some h
      simp only [List.mem_cons, Prod.mk.injEq, List.not_mem_nil, or_false] at hmem
      rcases hmem with ⟨rfl, rfl⟩ | ⟨rfl, rfl⟩ <;> rfl

namespace SourceFile

def fields : List Field :=
  [⟨"path", .text, .refused⟩, ⟨"language", .names ["verilog", "vhdl"], .refused⟩]

def form : Form := .record (some .refused) fields

theorem faithful : Faithful form encode decode := by
  refine faithful_record fields (fun _ => rfl) (by decide)
    (.cons faithful_path <| .cons Language.faithful .nil) (fun m => ?_)
    (fun s => ⟨_, rfl, .cons faithful_path _ <| .cons Language.faithful _ .nil⟩) fun s s' h => ?_
  · refine Built.required faithful_path rfl fun path h₁ => ?_
    refine Built.required Language.faithful rfl fun language h₂ => ?_
    refine Built.pure ?_
    simp only [encode, h₁, h₂]
    rfl
  · obtain ⟨path, language⟩ := s
    obtain ⟨path', language'⟩ := s'
    simp only [encode, Datum.map_cons_inj] at h
    obtain ⟨h₁, h₂, -⟩ := h
    rw [faithful_path.encode_injective h₁, Language.faithful.encode_injective h₂]

end SourceFile

namespace ToolOptions

def fields : List Field :=
  ["xst", "ngdbuild", "map", "par", "bitgen", "commands"].map fun name => ⟨name, .text, .refused⟩

def form : Form := .record (some .refused) fields

theorem faithful : Faithful form encode decode := by
  refine faithful_record fields (fun _ => rfl) (by decide)
    (.cons faithful_text <| .cons faithful_text <| .cons faithful_text <| .cons faithful_text <|
      .cons faithful_text <| .cons faithful_text .nil) (fun m => ?_)
    (fun o => ⟨_, rfl, .cons faithful_text _ <| .cons faithful_text _ <| .cons faithful_text _ <|
      .cons faithful_text _ <| .cons faithful_text _ <| .cons faithful_text _ .nil⟩)
    fun o o' h => ?_
  · refine Built.required faithful_text rfl fun xst h₁ => ?_
    refine Built.required faithful_text rfl fun ngdbuild h₂ => ?_
    refine Built.required faithful_text rfl fun map h₃ => ?_
    refine Built.required faithful_text rfl fun par h₄ => ?_
    refine Built.required faithful_text rfl fun bitgen h₅ => ?_
    refine Built.required faithful_text rfl fun commands h₆ => ?_
    refine Built.pure ?_
    simp only [encode, h₁, h₂, h₃, h₄, h₅, h₆]
    rfl
  · obtain ⟨xst, ngdbuild, map, par, bitgen, commands⟩ := o
    obtain ⟨xst', ngdbuild', map', par', bitgen', commands'⟩ := o'
    simp only [encode, Datum.map_cons_inj, Datum.text.injEq] at h
    obtain ⟨rfl, rfl, rfl, rfl, rfl, rfl, -⟩ := h
    rfl

end ToolOptions

/-! ### Fragments -/

namespace Register

def fields : List Field :=
  [⟨"name", .text, .refused⟩, ⟨"width", .word UInt32.size, .refused⟩,
    ⟨"domain", .text, .refused⟩, ⟨"next", .text, .refused⟩]

def form : Form := .record (some .refused) fields

theorem faithful : Faithful form encode decode := by
  refine faithful_record fields (fun _ => rfl) (by decide)
    (.cons faithful_text <| .cons faithful_word32 <| .cons faithful_text <|
      .cons faithful_text .nil) (fun m => ?_)
    (fun r => ⟨_, rfl, .cons faithful_text _ <| .cons faithful_word32 _ <|
      .cons faithful_text _ <| .cons faithful_text _ .nil⟩) fun r r' h => ?_
  · refine Built.required faithful_text rfl fun name h₁ => ?_
    refine Built.required faithful_word32 rfl fun width h₂ => ?_
    refine Built.required faithful_text rfl fun domain h₃ => ?_
    refine Built.required faithful_text rfl fun next h₄ => ?_
    refine Built.pure ?_
    simp only [encode, h₁, h₂, h₃, h₄]
    rfl
  · obtain ⟨name, width, domain, next⟩ := r
    obtain ⟨name', width', domain', next'⟩ := r'
    simp only [encode, Datum.map_cons_inj] at h
    obtain ⟨h₁, h₂, h₃, h₄, -⟩ := h
    rw [faithful_text.encode_injective h₁, faithful_word32.encode_injective h₂,
      faithful_text.encode_injective h₃, faithful_text.encode_injective h₄]

end Register

namespace Fragment

theorem decodeAssign_eq_ok_iff {d : Datum} {a : String × String} :
    decodeAssign d = .ok a ↔ d = encodeAssign a := by
  obtain ⟨s, s'⟩ := a
  cases d with
  | list ds =>
    match ds with
    | [] => simp [decodeAssign, encodeAssign]
    | [x] => cases x <;> simp [decodeAssign, encodeAssign, text, bind, Except.bind]
    | [x, y] =>
      cases x <;> cases y <;>
        simp [decodeAssign, encodeAssign, text, bind, Except.bind, pure, Except.pure]
    | x :: y :: z :: rest =>
      cases x <;> cases y <;> simp [decodeAssign, encodeAssign, text, bind, Except.bind]
  | _ => simp [decodeAssign, encodeAssign]

theorem faithful_assign : Faithful .pair encodeAssign decodeAssign :=
  .of_iff (fun _ => ⟨fun ⟨s, s', h⟩ => ⟨(s, s'), h⟩, fun ⟨a, h⟩ => ⟨a.1, a.2, h⟩⟩) (fun _ => rfl)
    fun _ _ => decodeAssign_eq_ok_iff

def fields : List Field :=
  [⟨"registers", .items Register.form, .refused⟩, ⟨"assigns", .items .pair, .refused⟩,
    ⟨"directives", .items .text, .refused⟩]

def form : Form := .record (some .refused) fields

theorem faithful : Faithful form encode decode := by
  refine faithful_record fields (fun _ => rfl) (by decide)
    (.cons Register.faithful.items <| .cons faithful_assign.items <| .cons faithful_texts .nil)
    (fun m => ?_)
    (fun f => ⟨_, rfl, .cons Register.faithful.items _ <| .cons faithful_assign.items _ <|
      .cons faithful_texts _ .nil⟩) fun f f' h => ?_
  · refine Built.required Register.faithful.items rfl fun registers h₁ => ?_
    refine Built.required faithful_assign.items rfl fun assigns h₂ => ?_
    refine Built.required faithful_texts rfl fun directives h₃ => ?_
    refine Built.pure ?_
    simp only [encode, h₁, h₂, h₃]
    rfl
  · obtain ⟨registers, assigns, directives⟩ := f
    obtain ⟨registers', assigns', directives'⟩ := f'
    simp only [encode, Datum.map_cons_inj] at h
    obtain ⟨h₁, h₂, h₃, -⟩ := h
    rw [Register.faithful.items.encode_injective h₁, faithful_assign.items.encode_injective h₂,
      faithful_texts.encode_injective h₃]

end Fragment

/-! ### Primitives -/

namespace Primitive

def noRetimingFields : List Field :=
  [⟨"reg", .text, .refused⟩]

def multiRegFields : List Field :=
  [⟨"input", .text, .refused⟩, ⟨"output", .text, .refused⟩, ⟨"odomain", .text, .refused⟩,
    ⟨"stages", .word UInt64.size, .filled (.int 2)⟩, ⟨"width", .word UInt32.size, .filled (.int 1)⟩]

/-- The form of each kind of primitive, without the tag. -/
def forms : List (String × Form) :=
  [("no_retiming", .record (some .counted) noRetimingFields),
    ("multi_reg", .record (some .counted) multiRegFields)]

def form : Form := .tagged "kind" forms

/-- The readers of the kinds. -/
def readers : List (String × Reader Primitive) :=
  [("no_retiming", decodeAs .noRetiming), ("multi_reg", decodeAs .multiReg)]

theorem follows_noRetiming : Follows (.record (some .counted) noRetimingFields)
    (decodeAs .noRetiming) fun p n => p.encode = Form.withTag "kind" "no_retiming" n := by
  refine follows_record noRetimingFields (fun _ => rfl) (by decide) (.cons faithful_text .nil)
    fun m => ?_
  refine Built.required faithful_text rfl fun reg h₁ => ?_
  refine Built.pure ?_
  simp only [encode, h₁]
  rfl

theorem follows_multiReg : Follows (.record (some .counted) multiRegFields)
    (decodeAs .multiReg) fun p n => p.encode = Form.withTag "kind" "multi_reg" n := by
  refine follows_record multiRegFields (fun _ => rfl) (by decide)
    (.cons faithful_text <| .cons faithful_text <| .cons faithful_text <|
      .cons faithful_word64 <| .cons faithful_word32 .nil) fun m => ?_
  refine Built.required faithful_text rfl fun input h₁ => ?_
  refine Built.required faithful_text rfl fun output h₂ => ?_
  refine Built.required faithful_text rfl fun domain h₃ => ?_
  refine Built.withDefault faithful_word64 rfl fun stages h₄ => ?_
  refine Built.withDefault faithful_word32 rfl fun width h₅ => ?_
  refine Built.pure ?_
  simp only [encode, h₁, h₂, h₃, h₄, h₅]
  rfl

theorem readers_follow : Variants (Form.withTag "kind") forms readers encode :=
  .cons follows_noRetiming <| .cons follows_multiReg .nil

theorem written (p : Primitive) : form.Fits p.encode ∧ form.normal p.encode = p.encode := by
  cases p with
  | noRetiming reg =>
    have hfields : Inscribed noRetimingFields [("reg", .text reg)] := .cons faithful_text reg .nil
    exact written_tagged hfields (by decide) (by decide) rfl
  | multiReg input output domain stages width =>
    have hfields : Inscribed multiRegFields [("input", .text input), ("output", .text output),
        ("odomain", .text domain), ("stages", .int stages.toNat), ("width", .int width.toNat)] :=
      .cons faithful_text input <| .cons faithful_text output <| .cons faithful_text domain <|
        .cons faithful_word64 stages <| .cons faithful_word32 width .nil
    exact written_tagged hfields (by decide) (by decide) rfl

theorem encode_inj (p q : Primitive) (h : p.encode = q.encode) : p = q := by
  cases p with
  | noRetiming reg =>
    cases q with
    | noRetiming reg' => simpa [encode] using h
    | multiReg => simp [encode] at h
  | multiReg input output domain stages width =>
    cases q with
    | noRetiming => simp [encode] at h
    | multiReg input' output' domain' stages' width' =>
      simp only [encode, Datum.map_cons_inj] at h
      obtain ⟨-, h₁, h₂, h₃, h₄, h₅, -⟩ := h
      rw [faithful_text.encode_injective h₁, faithful_text.encode_injective h₂,
        faithful_text.encode_injective h₃, faithful_word64.encode_injective h₄,
        faithful_word32.encode_injective h₅]

theorem lookup_readers (name : String) :
    readers.lookup name = (PrimitiveKind.byName.lookup name).map decodeAs := by
  simp only [readers, PrimitiveKind.byName, List.lookup_cons, List.lookup_nil]
  cases name == "no_retiming" <;> cases name == "multi_reg" <;> rfl

theorem decodeKind_eq_ok_iff {tag : Datum} {kind : PrimitiveKind} :
    decodeKind tag = .ok kind ↔
      ∃ name, tag = .text name ∧ PrimitiveKind.byName.lookup name = some kind := by
  cases tag with
  | text s =>
    rw [decodeKind]
    cases hs : PrimitiveKind.byName.lookup s <;> simp [hs]
  | _ => simp [decodeKind]

/-- A primitive is read by the reader of the kind under the tag. -/
theorem decode_eq {d x : Datum} {name : String} {reader : Reader Primitive}
    (hd : Form.untagged "kind" d = some (name, x)) (hreader : readers.lookup name = some reader) :
    decode d = reader x := by
  rw [lookup_readers] at hreader
  obtain ⟨kind, hkind, rfl⟩ := Option.map_eq_some_iff.1 hreader
  have htag := decodeKind_eq_ok_iff.2 ⟨name, rfl, hkind⟩
  rcases untagged_eq_some_iff.1 hd with ⟨entries, rfl, htagged, rfl⟩ | ⟨ds, rfl, rfl⟩
  · simp only [decode, htagged, htag]
    rfl
  · simp only [decode, htag]
    rfl

/-- Only what names a known kind is a primitive. -/
theorem exists_of_decode {d : Datum} {p : Primitive} (h : decode d = .ok p) :
    ∃ name x, Form.untagged "kind" d = some (name, x) ∧ (readers.lookup name).isSome = true := by
  have hknown {name : String} {kind : PrimitiveKind}
      (hkind : PrimitiveKind.byName.lookup name = some kind) :
      (readers.lookup name).isSome = true := by
    rw [lookup_readers, hkind]
    rfl
  cases d with
  | map entries =>
    rw [decode] at h
    cases htag : entries.lookup "kind" with
    | none =>
      rw [htag] at h
      cases h
    | some tag =>
      rw [htag] at h
      obtain ⟨kind, hkind, -⟩ := bind_eq_ok_iff.1 h
      obtain ⟨name, rfl, hname⟩ := decodeKind_eq_ok_iff.1 hkind
      exact ⟨name, _, untagged_eq_some_iff.2 (.inl ⟨entries, rfl, htag, rfl⟩), hknown hname⟩
  | list ds =>
    match ds, h with
    | tag :: rest, h =>
      rw [decode] at h
      obtain ⟨kind, hkind, -⟩ := bind_eq_ok_iff.1 h
      obtain ⟨name, rfl, hname⟩ := decodeKind_eq_ok_iff.1 hkind
      exact ⟨name, _, untagged_eq_some_iff.2 (.inr ⟨rest, rfl, rfl⟩), hknown hname⟩
  | _ => cases h

theorem faithful : Faithful form encode decode :=
  (follows_chosen readers_follow (fun _ _ _ _ => decode_eq) fun _ _ => exists_of_decode).faithful
    written encode_inj

end Primitive

/-! ### Configurations -/

namespace ToolchainSettings

def fields : List Field :=
  [⟨"ise_path", .optional .text, .filled .null⟩, ⟨"source", .optional .bool, .filled .null⟩]

def form (surplus : Surplus) : Form := .record (some surplus) fields

theorem faithful (surplus : Surplus) : Faithful (form surplus) encode (decode surplus) := by
  refine faithful_record fields (fun _ => rfl) (by decide)
    (.cons faithful_optionalPath <| .cons faithful_optionalBool .nil) (fun m => ?_)
    (fun s => ⟨_, rfl, .cons faithful_optionalPath _ <| .cons faithful_optionalBool _ .nil⟩)
    fun s s' h => ?_
  · refine Built.withDefault faithful_optionalPath rfl fun installRoot h₁ => ?_
    refine Built.withDefault faithful_optionalBool rfl fun source h₂ => ?_
    refine Built.pure ?_
    simp only [encode, h₁, h₂]
    rfl
  · obtain ⟨installRoot, source⟩ := s
    obtain ⟨installRoot', source'⟩ := s'
    simp only [encode, Datum.map_cons_inj] at h
    obtain ⟨h₁, h₂, -⟩ := h
    rw [faithful_optionalPath.encode_injective h₁, faithful_optionalBool.encode_injective h₂]

end ToolchainSettings

namespace BuildSettings

def fields : List Field :=
  [⟨"build_dir", .optional .text, .filled .null⟩, ⟨"build_name", .optional .text, .filled .null⟩,
    ⟨"mode", .optional .text, .filled .null⟩, ⟨"run", .optional .bool, .filled .null⟩]

def form (surplus : Surplus) : Form := .record (some surplus) fields

theorem faithful (surplus : Surplus) : Faithful (form surplus) encode (decode surplus) := by
  refine faithful_record fields (fun _ => rfl) (by decide)
    (.cons faithful_optionalPath <| .cons faithful_optionalText <| .cons faithful_optionalText <|
      .cons faithful_optionalBool .nil) (fun m => ?_)
    (fun s => ⟨_, rfl, .cons faithful_optionalPath _ <| .cons faithful_optionalText _ <|
      .cons faithful_optionalText _ <| .cons faithful_optionalBool _ .nil⟩) fun s s' h => ?_
  · refine Built.withDefault faithful_optionalPath rfl fun directory h₁ => ?_
    refine Built.withDefault faithful_optionalText rfl fun name h₂ => ?_
    refine Built.withDefault faithful_optionalText rfl fun mode h₃ => ?_
    refine Built.withDefault faithful_optionalBool rfl fun run h₄ => ?_
    refine Built.pure ?_
    simp only [encode, h₁, h₂, h₃, h₄]
    rfl
  · obtain ⟨directory, name, mode, run⟩ := s
    obtain ⟨directory', name', mode', run'⟩ := s'
    simp only [encode, Datum.map_cons_inj] at h
    obtain ⟨h₁, h₂, h₃, h₄, -⟩ := h
    rw [faithful_optionalPath.encode_injective h₁, faithful_optionalText.encode_injective h₂,
      faithful_optionalText.encode_injective h₃, faithful_optionalBool.encode_injective h₄]

end BuildSettings

namespace OptionSettings

def fields : List Field :=
  ["xst", "ngdbuild", "map", "par", "bitgen", "commands"].map fun name =>
    ⟨name, .optional .text, .filled .null⟩

def form (surplus : Surplus) : Form := .record (some surplus) fields

theorem faithful (surplus : Surplus) : Faithful (form surplus) encode (decode surplus) := by
  have hsetting := faithful_optionalText
  refine faithful_record fields (fun _ => rfl) (by decide)
    (.cons hsetting <| .cons hsetting <| .cons hsetting <| .cons hsetting <| .cons hsetting <|
      .cons hsetting .nil) (fun m => ?_)
    (fun s => ⟨_, rfl, .cons hsetting _ <| .cons hsetting _ <| .cons hsetting _ <|
      .cons hsetting _ <| .cons hsetting _ <| .cons hsetting _ .nil⟩) fun s s' h => ?_
  · refine Built.withDefault hsetting rfl fun xst h₁ => ?_
    refine Built.withDefault hsetting rfl fun ngdbuild h₂ => ?_
    refine Built.withDefault hsetting rfl fun map h₃ => ?_
    refine Built.withDefault hsetting rfl fun par h₄ => ?_
    refine Built.withDefault hsetting rfl fun bitgen h₅ => ?_
    refine Built.withDefault hsetting rfl fun commands h₆ => ?_
    refine Built.pure ?_
    simp only [encode, h₁, h₂, h₃, h₄, h₅, h₆]
    rfl
  · obtain ⟨xst, ngdbuild, map, par, bitgen, commands⟩ := s
    obtain ⟨xst', ngdbuild', map', par', bitgen', commands'⟩ := s'
    simp only [encode, Datum.map_cons_inj] at h
    obtain ⟨h₁, h₂, h₃, h₄, h₅, h₆, -⟩ := h
    rw [hsetting.encode_injective h₁, hsetting.encode_injective h₂, hsetting.encode_injective h₃,
      hsetting.encode_injective h₄, hsetting.encode_injective h₅, hsetting.encode_injective h₆]

end OptionSettings

namespace Config

def fields (surplus : Surplus) : List Field :=
  [⟨"toolchain", ToolchainSettings.form surplus, .filled (ToolchainSettings.encode {})⟩,
    ⟨"build", BuildSettings.form surplus, .filled (BuildSettings.encode {})⟩,
    ⟨"options", OptionSettings.form surplus, .filled (OptionSettings.encode {})⟩]

def form (surplus : Surplus) : Form := .record (some surplus) (fields surplus)

theorem faithful (surplus : Surplus) : Faithful (form surplus) encode (decode surplus) := by
  have htoolchain := ToolchainSettings.faithful surplus
  have hsettings := BuildSettings.faithful surplus
  have hoptions := OptionSettings.faithful surplus
  refine faithful_record (fields surplus) (fun _ => rfl) (by simp [fields])
    (.cons htoolchain <| .cons hsettings <| .cons hoptions .nil) (fun m => ?_)
    (fun c => ⟨_, rfl, .cons htoolchain _ <| .cons hsettings _ <| .cons hoptions _ .nil⟩)
    fun c c' h => ?_
  · refine Built.withDefault htoolchain rfl fun toolchain h₁ => ?_
    refine Built.withDefault hsettings rfl fun build h₂ => ?_
    refine Built.withDefault hoptions rfl fun options h₃ => ?_
    refine Built.pure ?_
    simp only [encode, h₁, h₂, h₃]
    rfl
  · obtain ⟨toolchain, build, options⟩ := c
    obtain ⟨toolchain', build', options'⟩ := c'
    simp only [encode, Datum.map_cons_inj] at h
    obtain ⟨h₁, h₂, h₃, -⟩ := h
    rw [htoolchain.encode_injective h₁, hsettings.encode_injective h₂,
      hoptions.encode_injective h₃]

end Config

/-- **Encoding and reading are inverse for every kind of record.** -/
theorem records_roundTrip :
    RoundTrips Attribute.form Attribute.encode Attribute.decode ∧
      RoundTrips Resource.form Resource.encode Resource.decode ∧
      RoundTrips SignalConstraint.form SignalConstraint.encode SignalConstraint.decode ∧
      RoundTrips SourceFile.form SourceFile.encode SourceFile.decode ∧
      RoundTrips Primitive.form Primitive.encode Primitive.decode ∧
      RoundTrips Register.form Register.encode Register.decode ∧
      RoundTrips Fragment.form Fragment.encode Fragment.decode ∧
      RoundTrips ToolOptions.form ToolOptions.encode ToolOptions.decode ∧
      ∀ surplus, RoundTrips (Config.form surplus) Config.encode (Config.decode surplus) :=
  ⟨Attribute.faithful.roundTrips, Resource.faithful.roundTrips,
    SignalConstraint.faithful.roundTrips, SourceFile.faithful.roundTrips,
    Primitive.faithful.roundTrips, Register.faithful.roundTrips, Fragment.faithful.roundTrips,
    ToolOptions.faithful.roundTrips, fun surplus => (Config.faithful surplus).roundTrips⟩

/-- The stages and the width can be left out, and other keys are passed over. -/
example (input output domain : String) (note : Datum) :
    Primitive.decode (.map [("note", note), ("kind", .text "multi_reg"), ("input", .text input),
      ("output", .text output), ("odomain", .text domain)]) =
        .ok (.multiReg input output domain 2 1) := by
  rfl

end FpgaFlow
