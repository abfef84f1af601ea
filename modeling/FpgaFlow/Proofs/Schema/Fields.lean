import FpgaFlow.Proofs.Schema.Form

/-!
# Reading records by their forms

Records are read field by field.  `Built` says that the fields of a list are read one after the
other; there is one lemma for each way in which a field is read (`Built.required`, `Built.optional`,
`Built.withDefault`), and one for the check that comes before (`check_eq_ok_iff`).

* `follows_record`, `follows_map`: a reader that checks and then reads all fields goes by the form
  of the record.
* `faithful_record`: so does the encoding that has all fields in their order.
* `follows_chosen`: a value that says which of several forms it has is read by that form.
-/

namespace FpgaFlow.Schema

section

variable {α β γ : Type} {form : Form} {encode : α → Datum} {decode : Reader α}

/-! ### Reading the fields of a record -/

/-- From the members of a record, all of which fit, the fields of a list are read one after the
other. -/
def Built (m : Members) (fs : List Field) (x : Except Mismatch α) (Q : α → Prop) : Prop :=
  (∀ f ∈ fs, f.Fitting m.pairs) →
    ((∃ a, x = .ok a) ↔ ∀ f ∈ fs, f.Supplied m.short.isSome m.pairs) ∧ ∀ a, x = .ok a → Q a

section

variable {m : Members} {f : Field} {fs : List Field} {Q : β → Prop} {k : α → Except Mismatch β}

theorem Built.pure {b : β} (h : Q b) : Built m [] (.ok b) Q := by
  intro _
  refine ⟨iff_of_true ⟨b, rfl⟩ (by simp), fun b' hb => ?_⟩
  rwa [← Except.ok.inj hb]

theorem Built.bind {x : Except Mismatch α} {R : α → Prop}
    (hx : f.Fitting m.pairs → ((∃ a, x = .ok a) ↔ f.Supplied m.short.isSome m.pairs) ∧
      ∀ a, x = .ok a → R a)
    (hk : ∀ a, R a → Built m fs (k a) Q) : Built m (f :: fs) (x >>= k) Q := by
  intro hfits
  obtain ⟨hf, hfs⟩ := List.forall_mem_cons.1 hfits
  obtain ⟨hiff, hR⟩ := hx hf
  rw [List.forall_mem_cons, ← hiff]
  constructor
  · constructor
    · rintro ⟨b, hb⟩
      obtain ⟨a, ha, hb⟩ := bind_eq_ok_iff.1 hb
      exact ⟨⟨a, ha⟩, (hk a (hR a ha) hfs).1.1 ⟨b, hb⟩⟩
    · rintro ⟨⟨a, ha⟩, hsupplied⟩
      obtain ⟨b, hb⟩ := (hk a (hR a ha) hfs).1.2 hsupplied
      exact ⟨b, bind_eq_ok_iff.2 ⟨a, ha, hb⟩⟩
  · intro b hb
    obtain ⟨a, ha, hb⟩ := bind_eq_ok_iff.1 hb
    exact (hk a (hR a ha) hfs).2 b hb

theorem Field.value_of_lookup {entries : List (String × Datum)} {d : Datum}
    (h : entries.lookup f.name = some d) : f.value entries = f.form.normal d := by
  rw [Field.value, h]
  rfl

/-- A field that is there is read by its reader. -/
theorem Faithful.read (h : Faithful f.form encode decode) {d : Datum}
    (hd : m.pairs.lookup f.name = some d) (hfits : f.Fitting m.pairs) :
    ((∃ a, decode d = .ok a) ↔ f.Supplied m.short.isSome m.pairs) ∧
      ∀ a, decode d = .ok a → encode a = f.value m.pairs := by
  have hmem := mem_of_lookup_eq_some hd
  rw [Field.value_of_lookup hd]
  exact ⟨iff_of_true ((h.accepts d).2 (hfits d hmem)) (.inl ⟨d, hmem⟩), h.encode_decode d⟩

theorem Built.required (h : Faithful f.form encode decode) (habsent : f.absence = .refused)
    (hk : ∀ a, encode a = f.value m.pairs → Built m fs (k a) Q) :
    Built m (f :: fs) (m.required f.name decode >>= k) Q := by
  refine Built.bind (fun hfits => ?_) hk
  rw [Members.required]
  cases hd : m.pairs.lookup f.name with
  | none =>
    refine ⟨iff_of_false (by simp) ?_, fun a ha => by cases ha⟩
    rw [Field.Supplied, habsent]
    exact not_or.2 ⟨not_exists_of_lookup_eq_none hd, id⟩
  | some d => exact h.read hd hfits

theorem Built.optional {encode : Option γ → Datum} {decode : Reader γ}
    {k : Option γ → Except Mismatch β}
    (h : Faithful f.form encode (Schema.optional decode)) (hnone : encode none = .null)
    (habsent : f.absence = .mapped)
    (hk : ∀ a, encode a = f.value m.pairs → Built m fs (k a) Q) :
    Built m (f :: fs) (m.optional f.name decode >>= k) Q := by
  refine Built.bind (fun hfits => ?_) hk
  rw [Members.optional]
  cases hd : m.pairs.lookup f.name with
  | none =>
    have hvalue : f.value m.pairs = .null := by
      rw [Field.value, hd, habsent]
      rfl
    rw [Field.Supplied, habsent, hvalue, or_iff_right (not_exists_of_lookup_eq_none hd)]
    cases m.short with
    | none => exact ⟨iff_of_true ⟨none, rfl⟩ rfl, fun a ha => by rwa [← Except.ok.inj ha]⟩
    | some mismatch =>
      exact ⟨iff_of_false (by simp) (by simp [Absence.Allowed]), fun a ha => by cases ha⟩
  | some d => exact h.read hd hfits

theorem Built.withDefault {default : α} (h : Faithful f.form encode decode)
    (habsent : f.absence = .filled (encode default))
    (hk : ∀ a, encode a = f.value m.pairs → Built m fs (k a) Q) :
    Built m (f :: fs) (m.withDefault f.name default decode >>= k) Q := by
  refine Built.bind (fun hfits => ?_) hk
  rw [Members.withDefault]
  cases hd : m.pairs.lookup f.name with
  | none =>
    have hvalue : f.value m.pairs = encode default := by
      rw [Field.value, hd, habsent]
      rfl
    rw [Field.Supplied, habsent, hvalue]
    exact ⟨iff_of_true ⟨default, rfl⟩ (.inr trivial), fun a ha => by rw [Except.ok.inj ha]⟩
  | some d => exact h.read hd hfits

end

/-! ### Records -/

/-- The forms of the fields by their names. -/
def formsOf (fields : List Field) : List (String × Form) :=
  fields.map fun f => (f.name, f.form)

/-- Rules for the fields of a record, in the order of the fields. -/
def Governed (fields : List Field) (rules : List (String × Reader Unit)) : Prop :=
  List.Forall₂ (fun f r => r.1 = f.1 ∧ ∀ d, r.2 d = .ok () ↔ f.2.Fits d) (formsOf fields) rules

theorem Faithful.fits_iff (h : Faithful form encode decode) (d : Datum) :
    fits decode d = .ok () ↔ form.Fits d := by
  rw [← h.accepts d, fits, map_eq_ok_iff]
  simp

section

variable {fields : List Field} {rules : List (String × Reader Unit)}

theorem Governed.nil : Governed [] [] := List.Forall₂.nil

theorem Governed.cons {name : String} {absence : Absence} (h : Faithful form encode decode)
    (hrules : Governed fields rules) :
    Governed (⟨name, form, absence⟩ :: fields) ((name, fits decode) :: rules) :=
  List.Forall₂.cons ⟨rfl, h.fits_iff⟩ hrules

theorem Governed.lookup (h : Governed fields rules) (name : String) :
    ((formsOf fields).lookup name = none ∧ rules.lookup name = none) ∨
      ∃ form rule, (formsOf fields).lookup name = some form ∧ rules.lookup name = some rule ∧
        ∀ d, rule d = .ok () ↔ form.Fits d :=
  lookup_forall₂ (R := fun _ (form : Form) (rule : Reader Unit) =>
    ∀ d, rule d = .ok () ↔ form.Fits d) h name

theorem lookup_formsOf (hnodup : (fields.map Field.name).Nodup) {f : Field} (hf : f ∈ fields) :
    (formsOf fields).lookup f.name = some f.form := by
  refine lookup_of_mem (f := (f.name, f.form)) ?_ (List.mem_map_of_mem hf)
  rwa [formsOf, List.map_map]

theorem exists_of_lookup_formsOf {name : String} (h : (formsOf fields).lookup name = some form) :
    ∃ f ∈ fields, f.name = name ∧ f.form = form := by
  obtain ⟨f, hf, heq⟩ := List.mem_map.1 (mem_of_lookup_eq_some h)
  exact ⟨f, hf, Prod.mk.inj heq⟩

/-- Items that are checked one by one. -/
theorem forM_eq_ok_iff {as : List β} {g : β → Except Mismatch Unit} :
    as.forM g = .ok () ↔ ∀ a ∈ as, g a = .ok () := by
  induction as with
  | nil => simp [pure, Except.pure]
  | cons a as ih =>
    rw [List.forM_eq_forM] at ih ⊢
    rw [List.forM_cons, bind_eq_ok_iff, List.forall_mem_cons, ← ih]
    constructor
    · rintro ⟨⟨⟩, ha, has⟩
      exact ⟨ha, has⟩
    · rintro ⟨ha, has⟩
      exact ⟨(), ha, has⟩

/-- **The check finds what does not fit, and nothing else.** -/
theorem check_eq_ok_iff {m : Members} (hnodup : (fields.map Field.name).Nodup)
    (hrules : Governed fields rules) :
    m.check rules = .ok () ↔ (∀ f ∈ fields, f.Fitting m.pairs) ∧ m.long = none := by
  rw [Members.check, bind_eq_ok_iff]
  constructor
  · rintro ⟨⟨⟩, hchecked, hlong⟩
    refine ⟨?_, ?_⟩
    · intro f hf d hd
      have hform := lookup_formsOf hnodup hf
      rcases hrules.lookup f.name with ⟨hnone, -⟩ | ⟨form, rule, hsome, hrule, hfits⟩
      · rw [hform] at hnone
        cases hnone
      · rw [hform] at hsome
        obtain rfl := Option.some.inj hsome
        have hok := forM_eq_ok_iff.1 hchecked _ hd
        simp only [hrule] at hok
        exact (hfits d).1 hok
    · cases hm : m.long with
      | none => rfl
      | some mismatch =>
        rw [hm] at hlong
        cases hlong
  · rintro ⟨hfitting, hlong⟩
    refine ⟨(), forM_eq_ok_iff.2 ?_, by rw [hlong]⟩
    rintro ⟨name, d⟩ hd
    rcases hrules.lookup name with ⟨-, hrule⟩ | ⟨form, rule, hform, hrule, hfits⟩
    · simp only [hrule]
    · obtain ⟨f, hf, rfl, rfl⟩ := exists_of_lookup_formsOf hform
      simp only [hrule]
      exact (hfits d).2 (hfitting f hf d hd)

variable {build : Members → Except Mismatch α} {Q : α → Datum → Prop}

/-- What is read from the members of a record. -/
theorem read_iff {m : Members} (hnodup : (fields.map Field.name).Nodup)
    (hrules : Governed fields rules)
    (hbuild : Built m fields (build m) fun a => Q a (Form.full fields m.pairs)) :
    ((∃ a, (m.check rules >>= fun _ => build m) = .ok a) ↔ m.long = none ∧
      (∀ f ∈ fields, f.Fitting m.pairs) ∧
        ∀ f ∈ fields, f.Supplied m.short.isSome m.pairs) ∧
    ∀ a, (m.check rules >>= fun _ => build m) = .ok a → Q a (Form.full fields m.pairs) := by
  constructor
  · constructor
    · rintro ⟨a, ha⟩
      obtain ⟨⟨⟩, hcheck, ha⟩ := bind_eq_ok_iff.1 ha
      obtain ⟨hfits, hlong⟩ := (check_eq_ok_iff hnodup hrules).1 hcheck
      exact ⟨hlong, hfits, (hbuild hfits).1.1 ⟨a, ha⟩⟩
    · rintro ⟨hlong, hfits, hsupplied⟩
      obtain ⟨a, ha⟩ := (hbuild hfits).1.2 hsupplied
      exact ⟨a, bind_eq_ok_iff.2 ⟨(), (check_eq_ok_iff hnodup hrules).2 ⟨hfits, hlong⟩, ha⟩⟩
  · intro a ha
    obtain ⟨⟨⟩, hcheck, ha⟩ := bind_eq_ok_iff.1 ha
    exact (hbuild ((check_eq_ok_iff hnodup hrules).1 hcheck).1).2 a ha

theorem mismatch?_eq_none_iff {surplus : Surplus} {count known : Nat} :
    surplus.mismatch? count known = none ↔ surplus = .passed ∨ count ≤ known := by
  unfold Surplus.mismatch?
  split
  next h => simp [h]
  next h => cases surplus <;> simp [h]

/-- **A record that is read field by field.** -/
theorem follows_record (fields : List Field) {surplus : Surplus} {what : String}
    (hdecode : ∀ d, decode d = members surplus what (fields.map Field.name) d >>= fun m =>
      m.check rules >>= fun _ => build m)
    (hnodup : (fields.map Field.name).Nodup) (hrules : Governed fields rules)
    (hbuild : ∀ m, Built m fields (build m) fun a => Q a (Form.full fields m.pairs)) :
    Follows (.record (some surplus) fields) decode Q := by
  have hread m := read_iff hnodup hrules (hbuild m)
  constructor
  case accepts =>
    intro d
    rw [hdecode]
    cases d with
    | map entries =>
      refine (hread ⟨entries, none, none⟩).1.trans ?_
      simp [Form.record]
    | list ds =>
      refine (hread ⟨_, _, _⟩).1.trans ?_
      rw [mismatch?_eq_none_iff]
      simp [Form.record, Form.zipped]
    | _ => simp [members, Form.record, bind, Except.bind]
  case normal =>
    intro d a ha
    rw [hdecode] at ha
    cases d with
    | map entries => exact (hread ⟨entries, none, none⟩).2 a ha
    | list ds => exact (hread ⟨_, _, _⟩).2 a ha
    | _ => cases ha

/-- A record that is only read from maps. -/
theorem follows_map (fields : List Field) (build : Members → Except Mismatch α)
    (hmap : ∀ entries, decode (.map entries) = Members.check ⟨entries, none, none⟩ rules >>=
      fun _ => build ⟨entries, none, none⟩)
    (hother : ∀ d a, decode d = .ok a → ∃ entries, d = .map entries)
    (hnodup : (fields.map Field.name).Nodup) (hrules : Governed fields rules)
    (hbuild : ∀ m, Built m fields (build m) fun a => Q a (Form.full fields m.pairs)) :
    Follows (.record none fields) decode Q := by
  have hread entries := read_iff hnodup hrules (hbuild ⟨entries, none, none⟩)
  constructor
  case accepts =>
    intro d
    cases d with
    | map entries =>
      rw [hmap]
      refine (hread entries).1.trans ?_
      simp [Form.record]
    | _ =>
      refine iff_of_false ?_ (by simp [Form.record])
      rintro ⟨a, ha⟩
      obtain ⟨entries, h⟩ := hother _ a ha
      cases h
  case normal =>
    intro d a ha
    obtain ⟨entries, rfl⟩ := hother d a ha
    rw [hmap] at ha
    exact (hread entries).2 a ha

/-- What is encoded is read back, if it is written in full and the encoding is injective. -/
theorem Follows.faithful (h : Follows form decode fun a n => encode a = n)
    (hwritten : ∀ a, form.Fits (encode a) ∧ form.normal (encode a) = encode a)
    (hinj : ∀ a b, encode a = encode b → a = b) : Faithful form encode decode where
  decode_encode a := by
    obtain ⟨hfits, hnormal⟩ := hwritten a
    obtain ⟨b, hb⟩ := (h.accepts _).2 hfits
    rw [hb, hinj b a ((h.normal _ b hb).trans hnormal)]
  accepts := h.accepts
  encode_decode := h.normal

theorem Faithful.written (h : Faithful form encode decode) (a : α) :
    form.Fits (encode a) ∧ form.normal (encode a) = encode a :=
  ⟨h.fits_of_ok (h.decode_encode a), (h.encode_decode _ a (h.decode_encode a)).symm⟩

/-- Entries that are the fields of a record, each of them written in full. -/
def Inscribed (fields : List Field) (entries : List (String × Datum)) : Prop :=
  List.Forall₂ (fun f e => e.1 = f.name ∧ f.form.Fits e.2 ∧ f.form.normal e.2 = e.2) fields entries

variable {entries : List (String × Datum)}

theorem Inscribed.nil : Inscribed [] [] := List.Forall₂.nil

theorem Inscribed.cons {name : String} {absence : Absence} (h : Faithful form encode decode) (a : α)
    (hentries : Inscribed fields entries) :
    Inscribed (⟨name, form, absence⟩ :: fields) ((name, encode a) :: entries) :=
  List.Forall₂.cons ⟨rfl, h.written a⟩ hentries

theorem Inscribed.keys_eq (h : Inscribed fields entries) :
    entries.map Prod.fst = fields.map Field.name := by
  induction h with
  | nil => rfl
  | cons hfe _ ih => rw [List.map_cons, List.map_cons, hfe.1, ih]

theorem Inscribed.lookup_eq (h : Inscribed fields entries)
    (hnodup : (fields.map Field.name).Nodup) : ∀ e ∈ entries, entries.lookup e.1 = some e.2 :=
  fun _ he => lookup_of_mem (h.keys_eq ▸ hnodup) he

theorem Inscribed.exists_entry (h : Inscribed fields entries) {f : Field} (hf : f ∈ fields) :
    ∃ d, (f.name, d) ∈ entries ∧ f.form.Fits d := by
  induction h with
  | nil => cases hf
  | @cons g e fields entries hge _ ih =>
    rcases List.mem_cons.1 hf with rfl | hf
    · exact ⟨e.2, hge.1 ▸ List.mem_cons_self, hge.2.1⟩
    · obtain ⟨d, hd, hfits⟩ := ih hf
      exact ⟨d, List.mem_cons_of_mem _ hd, hfits⟩

theorem Inscribed.map_eq {all : List (String × Datum)} (h : Inscribed fields entries)
    (hall : ∀ e ∈ entries, all.lookup e.1 = some e.2) :
    (fields.map fun f => (f.name, f.value all)) = entries := by
  induction h with
  | nil => rfl
  | @cons f e fields entries hfe _ ih =>
    obtain ⟨hname, -, hnormal⟩ := hfe
    obtain ⟨he, hrest⟩ := List.forall_mem_cons.1 hall
    rw [hname] at he
    rw [List.map_cons, ih hrest, Field.value_of_lookup he, hnormal, ← hname]

/-- **All fields, each of them written in full, are a record written in full.** -/
theorem Inscribed.written (h : Inscribed fields entries) (hnodup : (fields.map Field.name).Nodup)
    (lists : Option Surplus) : (Form.record lists fields).Fits (.map entries) ∧
      (Form.record lists fields).normal (.map entries) = .map entries := by
  refine ⟨⟨fun f hf d hd => ?_, fun f hf => ?_⟩, ?_⟩
  · obtain ⟨d', hd', hfits⟩ := h.exists_entry hf
    have hlookup := h.lookup_eq hnodup _ hd
    rw [h.lookup_eq hnodup _ hd'] at hlookup
    obtain rfl : d' = d := Option.some.inj hlookup
    exact hfits
  · obtain ⟨d, hd, -⟩ := h.exists_entry hf
    exact .inl ⟨d, hd⟩
  · exact congrArg Datum.map (h.map_eq (h.lookup_eq hnodup))

/-- **A record whose encoding has all fields.** -/
theorem faithful_record (fields : List Field) {surplus : Surplus} {what : String}
    (hdecode : ∀ d, decode d = members surplus what (fields.map Field.name) d >>= fun m =>
      m.check rules >>= fun _ => build m)
    (hnodup : (fields.map Field.name).Nodup) (hrules : Governed fields rules)
    (hbuild : ∀ m, Built m fields (build m) fun a => encode a = Form.full fields m.pairs)
    (hwritten : ∀ a, ∃ entries, encode a = .map entries ∧ Inscribed fields entries)
    (hinj : ∀ a b, encode a = encode b → a = b) :
    Faithful (.record (some surplus) fields) encode decode := by
  refine (follows_record fields hdecode hnodup hrules hbuild).faithful (fun a => ?_) hinj
  obtain ⟨entries, hentries, h⟩ := hwritten a
  rw [hentries]
  exact h.written hnodup _

/-! ### One of several forms -/

variable {select : Datum → Option (String × Datum)} {wrap : String → Datum → Datum}
variable {forms : List (String × Form)} {readers : List (String × Reader α)}

/-- Readers for some forms, in their order. -/
def Variants (wrap : String → Datum → Datum) (forms : List (String × Form))
    (readers : List (String × Reader α)) (encode : α → Datum) : Prop :=
  List.Forall₂ (fun f r => r.1 = f.1 ∧ Follows f.2 r.2 fun a n => encode a = wrap f.1 n)
    forms readers

theorem only_eq_some_iff {d : Datum} {e : String × Datum} :
    Form.only d = some e ↔ d = .map [e] := by
  constructor
  · intro h
    cases d with
    | map entries =>
      match entries, h with
      | [e'], h => rw [Option.some.inj h]
    | _ => cases h
  · rintro rfl
    rfl

/-- The two ways to name the form of a record. -/
theorem untagged_eq_some_iff {tag name : String} {d rest : Datum} :
    Form.untagged tag d = some (name, rest) ↔
      (∃ entries, d = .map entries ∧ entries.lookup tag = some (.text name) ∧
        rest = .map (entries.filter fun e => e.1 != tag)) ∨
      ∃ ds, d = .list (.text name :: ds) ∧ rest = .list ds := by
  constructor
  · intro h
    cases d with
    | map entries =>
      rw [Form.untagged] at h
      split at h
      next s hs =>
        obtain ⟨rfl, rfl⟩ := Prod.mk.inj (Option.some.inj h)
        exact .inl ⟨entries, rfl, hs, rfl⟩
      · cases h
    | list ds =>
      match ds, h with
      | .text s :: ds, h =>
        obtain ⟨rfl, rfl⟩ := Prod.mk.inj (Option.some.inj h)
        exact .inr ⟨ds, rfl, rfl⟩
    | _ => cases h
  · rintro (⟨entries, rfl, hname, rfl⟩ | ⟨ds, rfl, rfl⟩)
    · rw [Form.untagged, hname]
    · rfl

theorem Variants.nil : Variants wrap [] [] encode := List.Forall₂.nil

theorem Variants.cons {name : String} {reader : Reader α}
    (h : Follows form reader fun a n => encode a = wrap name n)
    (hvariants : Variants wrap forms readers encode) :
    Variants wrap ((name, form) :: forms) ((name, reader) :: readers) encode :=
  List.Forall₂.cons ⟨rfl, h⟩ hvariants

/-- A name is known to the readers when it is known to the forms. -/
theorem Variants.lookup (h : Variants wrap forms readers encode) (name : String) :
    (forms.lookup name = none ∧ readers.lookup name = none) ∨
      ∃ f reader, forms.lookup name = some f ∧ readers.lookup name = some reader ∧
        Follows f reader fun a n => encode a = wrap name n :=
  lookup_forall₂ (R := fun name f reader => Follows f reader fun a n => encode a = wrap name n)
    h name

/-- A reader for a variant that holds one value. -/
theorem Faithful.variant {name : String} {encodeAll : β → Datum} (h : Faithful form encode decode)
    (g : α → β) (hg : ∀ a, encodeAll (g a) = .map [(name, encode a)]) :
    Follows form (fun d => (decode d).map g) fun b n => encodeAll b = .map [(name, n)] where
  accepts d := by
    rw [← h.accepts d]
    cases decode d <;> simp [Except.map]
  normal d b hb := by
    obtain ⟨a, ha, rfl⟩ := map_eq_ok_iff.1 hb
    rw [hg, h.encode_decode d a ha]

/-- **A value that is read by the reader for the form that is selected.** -/
theorem follows_chosen (hvariants : Variants wrap forms readers encode)
    (hdecode : ∀ d name x reader, select d = some (name, x) → readers.lookup name = some reader →
      decode d = reader x)
    (hselect : ∀ d a, decode d = .ok a → ∃ name x, select d = some (name, x) ∧
      (readers.lookup name).isSome = true) :
    Follows (.chosen select wrap forms) decode fun a n => encode a = n := by
  constructor
  case accepts =>
    intro d
    constructor
    · rintro ⟨a, ha⟩
      obtain ⟨name, x, hd, hname⟩ := hselect d a ha
      rcases hvariants.lookup name with ⟨-, hnone⟩ | ⟨f, reader, hf, hreader, hfollows⟩
      · rw [hnone] at hname
        cases hname
      · rw [hdecode d name x reader hd hreader] at ha
        exact ⟨name, x, f, hd, hf, (hfollows.accepts x).1 ⟨a, ha⟩⟩
    · rintro ⟨name, x, f, hd, hf, hfits⟩
      rcases hvariants.lookup name with ⟨hnone, -⟩ | ⟨f', reader, hf', hreader, hfollows⟩
      · rw [hf] at hnone
        cases hnone
      · rw [hf] at hf'
        obtain rfl := Option.some.inj hf'
        rw [hdecode d name x reader hd hreader]
        exact (hfollows.accepts x).2 hfits
  case normal =>
    intro d a ha
    obtain ⟨name, x, hd, hname⟩ := hselect d a ha
    rcases hvariants.lookup name with ⟨-, hnone⟩ | ⟨f, reader, hf, hreader, hfollows⟩
    · rw [hnone] at hname
      cases hname
    · rw [hdecode d name x reader hd hreader] at ha
      rw [hfollows.normal x a ha, Form.chosen]
      simp only [hd, hf, Option.map_some, Option.getD_some]

theorem written_chosen {d x : Datum} {name : String} (hd : select d = some (name, x))
    (hwrap : wrap name x = d) (hf : forms.lookup name = some form)
    (h : form.Fits x ∧ form.normal x = x) :
    (Form.chosen select wrap forms).Fits d ∧ (Form.chosen select wrap forms).normal d = d := by
  refine ⟨⟨name, x, form, hd, hf, h.1⟩, ?_⟩
  simp only [Form.chosen, hd, hf, Option.map_some, Option.getD_some, h.2, hwrap]

theorem written_variants {x : Datum} {name : String} (hf : forms.lookup name = some form)
    (h : form.Fits x ∧ form.normal x = x) : (Form.variants forms).Fits (.map [(name, x)]) ∧
      (Form.variants forms).normal (.map [(name, x)]) = .map [(name, x)] :=
  written_chosen rfl rfl hf h

/-- A record with all fields and the tag in front. -/
theorem written_tagged {tag name : String} (hentries : Inscribed fields entries)
    (hnodup : (fields.map Field.name).Nodup) (htag : tag ∉ fields.map Field.name)
    (hf : forms.lookup name = some (.record (some .counted) fields)) :
    (Form.tagged tag forms).Fits (.map ((tag, .text name) :: entries)) ∧
      (Form.tagged tag forms).normal (.map ((tag, .text name) :: entries)) =
        .map ((tag, .text name) :: entries) := by
  have hrest : entries.filter (fun e => e.1 != tag) = entries := by
    refine List.filter_eq_self.2 fun e he => bne_iff_ne.2 fun heq => htag ?_
    rw [← hentries.keys_eq, ← heq]
    exact List.mem_map_of_mem he
  have huntagged : Form.untagged tag (.map ((tag, .text name) :: entries)) =
      some (name, .map entries) := by
    simp [Form.untagged, hrest]
  exact written_chosen huntagged rfl hf (hentries.written hnodup _)

end

end

end FpgaFlow.Schema
