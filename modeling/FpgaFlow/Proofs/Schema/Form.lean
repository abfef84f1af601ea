import FpgaFlow.Proofs.Schema.Shape
import FpgaFlow.Proofs.Tree.Growth

/-!
# What the values of a record look like

A form says which values stand for something (`Form.Fits`), how each of them is written in full
(`Form.normal`: a record as a map of all its fields in their order and of nothing else, with what
counts for the fields that are left out), and where a number is out of its range (`Form.Exceeds`).
There are forms for single values, optional values, lists, records, and for the two ways in which a
value can say which of several forms it has.

* `Faithful`: an encoding and a reader that follow a form.  What is encoded is read back, the
  reader accepts what has the form and nothing else, and encoding what was read writes it in full.
* `Faithful.roundTrips`: then a value is not changed by encoding and reading it again, what is left
  out and what is not known make no difference, and a number out of its range is refused.

Single values, named values, optional values and lists are read by their forms.
-/

namespace FpgaFlow.Schema

/-! ### Forms -/

/-- What the values of a kind look like. -/
structure Form where
  /-- The values that stand for something. -/
  Fits : Datum → Prop
  /-- A value written in full. -/
  normal : Datum → Datum
  /-- The values in which a number is out of its range. -/
  Exceeds : Datum → Prop
  not_fits : ∀ d, Exceeds d → ¬ Fits d

/-- What counts for a field that is left out. -/
inductive Absence where
  | refused
  /-- Nothing counts, but only a map can leave the field out. -/
  | mapped
  | filled (default : Datum)

namespace Absence

/-- What stands for the field. -/
def value : Absence → Datum
  | filled d => d
  | _ => .null

/-- Whether a map, or a list, can leave the field out. -/
def Allowed (listed : Bool) : Absence → Prop
  | refused => False
  | mapped => listed = false
  | filled _ => True

end Absence

/-- A field of a record. -/
structure Field where
  name : String
  form : Form
  absence : Absence

namespace Field

/-- What the entries of a record say for a field. -/
def value (f : Field) (entries : List (String × Datum)) : Datum :=
  ((entries.lookup f.name).map f.form.normal).getD f.absence.value

/-- Whatever is said for a field fits. -/
def Fitting (f : Field) (entries : List (String × Datum)) : Prop :=
  ∀ d, (f.name, d) ∈ entries → f.form.Fits d

/-- Something is said for a field, or it may be left out. -/
def Supplied (f : Field) (listed : Bool) (entries : List (String × Datum)) : Prop :=
  (∃ d, (f.name, d) ∈ entries) ∨ f.absence.Allowed listed

/-- Something that is said for a field has a number out of its range. -/
def Exceeding (f : Field) (entries : List (String × Datum)) : Prop :=
  ∃ d, (f.name, d) ∈ entries ∧ f.form.Exceeds d

theorem not_fitting {f : Field} {entries : List (String × Datum)} (h : f.Exceeding entries) :
    ¬ f.Fitting entries := by
  obtain ⟨d, hmem, hd⟩ := h
  exact fun hfits => f.form.not_fits d hd (hfits d hmem)

end Field

namespace Form

/-- Values that are always written in full and hold no numbers. -/
def plain (p : Datum → Prop) : Form where
  Fits := p
  normal := id
  Exceeds _ := False
  not_fits _ := False.elim

def text : Form := plain fun d => ∃ s, d = .text s

def bool : Form := plain fun d => ∃ b, d = .bool b

/-- A list of two texts. -/
def pair : Form := plain fun d => ∃ s s', d = .list [.text s, .text s']

/-- A natural number below a bound. -/
def word (bound : Nat) : Form where
  Fits d := ∃ i : Int, d = .int i ∧ 0 ≤ i ∧ i < bound
  normal := id
  Exceeds d := ∃ i : Int, d = .int i ∧ ¬ (0 ≤ i ∧ i < bound)
  not_fits := by
    rintro _ ⟨i, rfl, hi⟩ ⟨j, hj, hrange⟩
    exact hi (Datum.int.inj hj ▸ hrange)

/-- A value that may be missing. -/
def optional (f : Form) : Form where
  Fits d := d = .null ∨ f.Fits d
  normal
    | .null => .null
    | d => f.normal d
  Exceeds d := d ≠ .null ∧ f.Exceeds d
  not_fits d h hfits := hfits.elim h.1 (f.not_fits d h.2)

/-- A list of values of a form. -/
def items (f : Form) : Form where
  Fits d := ∃ ds, d = .list ds ∧ ∀ x ∈ ds, f.Fits x
  normal
    | .list ds => .list (ds.map f.normal)
    | d => d
  Exceeds d := ∃ ds, d = .list ds ∧ ∃ x ∈ ds, f.Exceeds x
  not_fits := by
    rintro _ ⟨ds, rfl, x, hx, h⟩ ⟨ds', heq, hfits⟩
    exact f.not_fits x h (hfits x (Datum.list.inj heq ▸ hx))

/-- One of some names, as a text or as the only key of a map that says no more. -/
def names (ns : List String) : Form where
  Fits d := ∃ s ∈ ns, d = .text s ∨ d = .map [(s, .null)]
  normal
    | .map [(s, .null)] => .text s
    | d => d
  Exceeds _ := False
  not_fits _ := False.elim

/-- The entries of a record that is written as a list. -/
def zipped (fields : List Field) (ds : List Datum) : List (String × Datum) :=
  (fields.map Field.name).zip ds

/-- All fields of a record. -/
def full (fields : List Field) (entries : List (String × Datum)) : Datum :=
  .map (fields.map fun f => (f.name, f.value entries))

/-- A record.  It is a map, or the list of the fields if `lists` says what becomes of further
items. -/
def record (lists : Option Surplus) (fields : List Field) : Form where
  Fits
    | .map entries =>
      (∀ f ∈ fields, f.Fitting entries) ∧ ∀ f ∈ fields, f.Supplied false entries
    | .list ds => (∃ s ∈ lists, s = .passed ∨ ds.length ≤ fields.length) ∧
      (∀ f ∈ fields, f.Fitting (zipped fields ds)) ∧
        ∀ f ∈ fields, f.Supplied true (zipped fields ds)
    | _ => False
  normal
    | .map entries => full fields entries
    | .list ds => full fields (zipped fields ds)
    | d => d
  Exceeds
    | .map entries => ∃ f ∈ fields, f.Exceeding entries
    | .list ds => ∃ f ∈ fields, f.Exceeding (zipped fields ds)
    | _ => False
  not_fits d := by
    cases d with
    | map entries =>
      rintro ⟨f, hf, h⟩ ⟨hfits, -⟩
      exact Field.not_fitting h (hfits f hf)
    | list ds =>
      rintro ⟨f, hf, h⟩ ⟨-, hfits, -⟩
      exact Field.not_fitting h (hfits f hf)
    | _ => exact False.elim

/-- A value of one of several forms: `select` finds the name of the form and what is to have it,
and `wrap` puts the two together. -/
def chosen (select : Datum → Option (String × Datum)) (wrap : String → Datum → Datum)
    (forms : List (String × Form)) : Form where
  Fits d := ∃ name x f, select d = some (name, x) ∧ forms.lookup name = some f ∧ f.Fits x
  normal d := match select d with
    | some (name, x) => wrap name (((forms.lookup name).map fun f => f.normal x).getD x)
    | none => d
  Exceeds d := ∃ name x f, select d = some (name, x) ∧ forms.lookup name = some f ∧ f.Exceeds x
  not_fits := by
    rintro d ⟨name, x, f, hd, hf, h⟩ ⟨name', x', f', hd', hf', hfits⟩
    rw [hd] at hd'
    obtain ⟨rfl, rfl⟩ := Prod.mk.inj (Option.some.inj hd')
    rw [hf] at hf'
    obtain rfl := Option.some.inj hf'
    exact f.not_fits x h hfits

/-- The only entry of a map. -/
def only : Datum → Option (String × Datum)
  | .map [e] => some e
  | _ => none

/-- A value under the name of its form as the only key of a map. -/
def variants (forms : List (String × Form)) : Form :=
  chosen only (fun name x => .map [(name, x)]) forms

/-- The name under a tag, or in front of a list, and the record without it. -/
def untagged (tag : String) : Datum → Option (String × Datum)
  | .map entries => match entries.lookup tag with
    | some (.text s) => some (s, .map (entries.filter fun e => e.1 != tag))
    | _ => none
  | .list (.text s :: rest) => some (s, .list rest)
  | _ => none

/-- A record with the name of its form under a tag. -/
def withTag (tag name : String) : Datum → Datum
  | .map entries => .map ((tag, .text name) :: entries)
  | d => d

/-- A record in which the text under a tag says which form the rest has. -/
def tagged (tag : String) (forms : List (String × Form)) : Form :=
  chosen (untagged tag) (withTag tag) forms

end Form

/-! ### Encodings and readers -/

section

variable {α β γ : Type} {form : Form} {encode : α → Datum} {decode : Reader α}

/-- A reader accepts what has a form and nothing else, and what it gives is related to the value
written in full. -/
structure Follows (form : Form) (decode : Reader α) (Q : α → Datum → Prop) : Prop where
  accepts : ∀ d, (∃ a, decode d = .ok a) ↔ form.Fits d
  normal : ∀ d a, decode d = .ok a → Q a (form.normal d)

/-- An encoding and a reader follow a form. -/
structure Faithful (form : Form) (encode : α → Datum) (decode : Reader α) : Prop where
  decode_encode : ∀ a, decode (encode a) = .ok a
  accepts : ∀ d, (∃ a, decode d = .ok a) ↔ form.Fits d
  encode_decode : ∀ d a, decode d = .ok a → encode a = form.normal d

/-- Encoding and reading are inverse, and reading looks at nothing but the form. -/
structure RoundTrips (form : Form) (encode : α → Datum) (decode : Reader α) : Prop where
  decode_encode : ∀ a, decode (encode a) = .ok a
  /-- What was read, encoded and read again is the same. -/
  again : ∀ d a, decode d = .ok a → encode a = form.normal d ∧ decode (encode a) = .ok a
  accepts : ∀ d, (∃ a, decode d = .ok a) ↔ form.Fits d
  /-- What is left out or not known makes no difference. -/
  same : ∀ d d', form.Fits d → form.Fits d' → form.normal d = form.normal d' → decode d = decode d'
  /-- A number out of its range is refused. -/
  refuses : ∀ d, form.Exceeds d → ∃ m, decode d = .error m

namespace Faithful

theorem fits_of_ok (h : Faithful form encode decode) {d : Datum} {a : α} (hd : decode d = .ok a) :
    form.Fits d :=
  (h.accepts d).1 ⟨a, hd⟩

theorem encode_injective (h : Faithful form encode decode) {a b : α} (hab : encode a = encode b) :
    a = b := by
  have hdecode := h.decode_encode a
  rw [hab, h.decode_encode b] at hdecode
  exact (Except.ok.inj hdecode).symm

/-- Values that are always written in full are read from what they are encoded as. -/
theorem eq_ok_iff (h : Faithful form encode decode) (hfull : ∀ d, form.normal d = d) {d : Datum}
    {a : α} : decode d = .ok a ↔ d = encode a := by
  constructor
  · intro hd
    rw [h.encode_decode d a hd, hfull]
  · rintro rfl
    exact h.decode_encode a

/-- **Encoding and reading are inverse.** -/
theorem roundTrips (h : Faithful form encode decode) : RoundTrips form encode decode where
  decode_encode := h.decode_encode
  again d a hd := ⟨h.encode_decode d a hd, h.decode_encode a⟩
  accepts := h.accepts
  same d d' hd hd' heq := by
    obtain ⟨a, ha⟩ := (h.accepts d).2 hd
    obtain ⟨b, hb⟩ := (h.accepts d').2 hd'
    rw [← h.encode_decode d a ha, ← h.encode_decode d' b hb] at heq
    rw [ha, hb, h.encode_injective heq]
  refuses d hd := by
    cases hdecode : decode d with
    | error m => exact ⟨m, rfl⟩
    | ok a => exact absurd (h.fits_of_ok hdecode) (form.not_fits d hd)

end Faithful

/-! ### Single values, optional values and lists -/

/-- A reader that reads what is encoded and nothing else. -/
theorem Faithful.of_iff (hfits : ∀ d, form.Fits d ↔ ∃ a, d = encode a)
    (hnormal : ∀ a, form.normal (encode a) = encode a)
    (h : ∀ d a, decode d = .ok a ↔ d = encode a) : Faithful form encode decode where
  decode_encode a := (h _ a).2 rfl
  accepts d := by
    rw [hfits]
    exact exists_congr (h d)
  encode_decode d a hd := by
    rw [(h d a).1 hd, hnormal]

theorem faithful_text : Faithful .text .text text :=
  .of_iff (fun _ => Iff.rfl) (fun _ => rfl) fun d s => by
    cases d <;> simp [text, eq_comm]

theorem faithful_path : Faithful .text (fun p : Path => .text p.text) path :=
  .of_iff (fun _ => ⟨fun ⟨s, h⟩ => ⟨⟨s⟩, h⟩, fun ⟨p, h⟩ => ⟨p.text, h⟩⟩) (fun _ => rfl)
      fun d p => by
    obtain ⟨s⟩ := p
    cases d <;> simp [path, eq_comm]

theorem faithful_bool : Faithful .bool .bool bool :=
  .of_iff (fun _ => Iff.rfl) (fun _ => rfl) fun d b => by
    cases d <;> simp [bool, eq_comm]

theorem natural_eq_ok_iff {kind : String} {bound n : Nat} {d : Datum} :
    natural kind bound d = .ok n ↔ n < bound ∧ d = .int n := by
  cases d with
  | int i =>
    rw [natural, Datum.int.injEq]
    split
    next h =>
      rw [Except.ok.injEq]
      omega
    next h =>
      refine iff_of_false (by simp) ?_
      rintro ⟨hn, rfl⟩
      omega
  | _ => simp [natural]

/-- The form of a natural number that a type of `bound` numbers holds. -/
theorem word_fits_iff {bound : Nat} {d : Datum} :
    (Form.word bound).Fits d ↔ ∃ n, n < bound ∧ d = .int n := by
  constructor
  · rintro ⟨i, rfl, hpos, hlt⟩
    exact ⟨i.toNat, by omega, by rw [Int.toNat_of_nonneg hpos]⟩
  · rintro ⟨n, hn, rfl⟩
    exact ⟨n, rfl, by omega, by omega⟩

theorem faithful_word {kind : String} {bound : Nat} {ofNat : Nat → α} {toNat : α → Nat}
    (hlt : ∀ w, toNat w < bound) (hto : ∀ n, n < bound → toNat (ofNat n) = n)
    (hof : ∀ w, ofNat (toNat w) = w) :
    Faithful (.word bound) (fun w => .int (toNat w)) fun d => (natural kind bound d).map ofNat := by
  refine .of_iff (fun d => ?_) (fun _ => rfl) fun d w => ?_
  · rw [word_fits_iff]
    constructor
    · rintro ⟨n, hn, rfl⟩
      exact ⟨ofNat n, by rw [hto n hn]⟩
    · rintro ⟨w, rfl⟩
      exact ⟨toNat w, hlt w, rfl⟩
  · rw [map_eq_ok_iff]
    constructor
    · rintro ⟨n, hn, rfl⟩
      obtain ⟨hbound, rfl⟩ := natural_eq_ok_iff.1 hn
      rw [hto n hbound]
    · rintro rfl
      exact ⟨toNat w, natural_eq_ok_iff.2 ⟨hlt w, rfl⟩, hof w⟩

theorem faithful_word32 : Faithful (.word UInt32.size) (fun w => .int w.toNat) word32 :=
  faithful_word UInt32.toNat_lt_size (fun _ => UInt32.toNat_ofNat_of_lt') fun _ =>
    UInt32.ofNat_toNat

theorem faithful_word64 : Faithful (.word UInt64.size) (fun w => .int w.toNat) word64 :=
  faithful_word UInt64.toNat_lt_size (fun _ => UInt64.toNat_ofNat_of_lt') fun _ =>
    UInt64.ofNat_toNat

theorem Faithful.optional (h : Faithful form encode decode) (hnull : ∀ a, encode a ≠ .null) :
    Faithful form.optional (Datum.ofOption encode) (Schema.optional decode) := by
  have hvalue {d : Datum} (hd : d ≠ .null) : Schema.optional decode d = (decode d).map some := by
    cases d <;> first | rfl | exact absurd rfl hd
  have hnormal {d : Datum} (hd : d ≠ .null) : form.optional.normal d = form.normal d := by
    cases d <;> first | rfl | exact absurd rfl hd
  constructor
  case decode_encode =>
    intro a
    cases a with
    | none => rfl
    | some a =>
      rw [Datum.ofOption, hvalue (hnull a), h.decode_encode]
      rfl
  case accepts =>
    intro d
    by_cases hd : d = .null
    · exact iff_of_true ⟨none, hd ▸ rfl⟩ (.inl hd)
    · have hfits : form.optional.Fits d ↔ form.Fits d := or_iff_right hd
      rw [hvalue hd, hfits, ← h.accepts d]
      cases decode d <;> simp [Except.map]
  case encode_decode =>
    intro d a ha
    by_cases hd : d = .null
    · subst hd
      obtain rfl := Except.ok.inj ha
      rfl
    · rw [hvalue hd] at ha
      rw [hnormal hd]
      cases hdecode : decode d with
      | error m => simp [hdecode, Except.map] at ha
      | ok b =>
        rw [hdecode] at ha
        obtain rfl := Except.ok.inj ha
        exact h.encode_decode d b hdecode

/-- Items that are read one by one. -/
theorem Faithful.map_eq (h : Faithful form encode decode) {ds : List Datum} {as : List α}
    (hds : ds.map decode = as.map .ok) :
    (∀ d ∈ ds, form.Fits d) ∧ as.map encode = ds.map form.normal := by
  induction ds generalizing as with
  | nil =>
    obtain rfl := List.map_eq_nil_iff.1 hds.symm
    exact ⟨by simp, rfl⟩
  | cons d ds ih =>
    cases as with
    | nil => cases hds
    | cons a as =>
      obtain ⟨hd, hrest⟩ := List.cons.inj hds
      obtain ⟨hfits, hnormal⟩ := ih hrest
      refine ⟨List.forall_mem_cons.2 ⟨h.fits_of_ok hd, hfits⟩, ?_⟩
      rw [List.map_cons, List.map_cons, h.encode_decode d a hd, hnormal]

theorem Faithful.exists_map_eq (h : Faithful form encode decode) {ds : List Datum}
    (hds : ∀ d ∈ ds, form.Fits d) : ∃ as : List α, ds.map decode = as.map .ok := by
  induction ds with
  | nil => exact ⟨[], rfl⟩
  | cons d ds ih =>
    obtain ⟨hd, hrest⟩ := List.forall_mem_cons.1 hds
    obtain ⟨a, ha⟩ := (h.accepts d).2 hd
    obtain ⟨as, has⟩ := ih hrest
    exact ⟨a :: as, by rw [List.map_cons, ha, has, List.map_cons]⟩

theorem Faithful.items (h : Faithful form encode decode) :
    Faithful form.items (fun as => .list (as.map encode)) (listOf decode) := by
  constructor
  case decode_encode =>
    intro as
    rw [listOf, mapM_eq_ok_iff, List.map_map]
    exact List.map_congr_left fun a _ => h.decode_encode a
  case accepts =>
    intro d
    constructor
    · rintro ⟨as, has⟩
      cases d with
      | list ds => exact ⟨ds, rfl, (h.map_eq (mapM_eq_ok_iff.1 has)).1⟩
      | _ => cases has
    · rintro ⟨ds, rfl, hds⟩
      obtain ⟨as, has⟩ := h.exists_map_eq hds
      exact ⟨as, mapM_eq_ok_iff.2 has⟩
  case encode_decode =>
    intro d as has
    cases d with
    | list ds => exact congrArg Datum.list (h.map_eq (mapM_eq_ok_iff.1 has)).2
    | _ => cases has

/-! ### Named values -/

theorem not_exists_of_lookup_eq_none {key : String} {entries : List (String × β)}
    (h : entries.lookup key = none) : ¬ ∃ b, (key, b) ∈ entries := by
  rintro ⟨b, hmem⟩
  have hne := List.lookup_eq_none_iff.1 h _ hmem
  simp at hne

theorem oneOf_eq_ok_iff {named : List (String × α)} {d : Datum} {a : α} :
    oneOf named d = .ok a ↔
      ∃ s, named.lookup s = some a ∧ (d = .text s ∨ d = .map [(s, .null)]) := by
  constructor
  · intro h
    cases d with
    | text s =>
      cases hs : named.lookup s with
      | none => simp [oneOf, hs] at h
      | some b =>
        simp only [oneOf, hs, Except.ok.injEq] at h
        exact ⟨s, h ▸ hs, .inl rfl⟩
    | map entries =>
      match entries, h with
      | [(s, x)], h =>
        cases hs : named.lookup s with
        | none => simp [oneOf, hs] at h
        | some b =>
          cases x with
          | null =>
            simp only [oneOf, hs, Except.ok.injEq] at h
            exact ⟨s, h ▸ hs, .inr rfl⟩
          | _ => simp [oneOf, hs] at h
    | _ => cases h
  · rintro ⟨s, hs, rfl | rfl⟩ <;> simp only [oneOf, hs]

/-- A value that is one of some names. -/
theorem faithful_oneOf (named : List (String × α)) (name : α → String)
    (hname : ∀ a, named.lookup (name a) = some a)
    (hlookup : ∀ s a, named.lookup s = some a → name a = s) :
    Faithful (.names (named.map Prod.fst)) (fun a => .text (name a)) (oneOf named) where
  decode_encode a := oneOf_eq_ok_iff.2 ⟨name a, hname a, .inl rfl⟩
  accepts d := by
    constructor
    · rintro ⟨a, ha⟩
      obtain ⟨s, hs, hd⟩ := oneOf_eq_ok_iff.1 ha
      exact ⟨s, List.mem_map.2 ⟨(s, a), mem_of_lookup_eq_some hs, rfl⟩, hd⟩
    · rintro ⟨s, hs, hd⟩
      cases ha : named.lookup s with
      | none =>
        obtain ⟨e, he, rfl⟩ := List.mem_map.1 hs
        exact absurd ⟨e.2, he⟩ (not_exists_of_lookup_eq_none ha)
      | some a => exact ⟨a, oneOf_eq_ok_iff.2 ⟨s, ha, hd⟩⟩
  encode_decode d a ha := by
    obtain ⟨s, hs, rfl | rfl⟩ := oneOf_eq_ok_iff.1 ha <;> rw [hlookup s a hs] <;> rfl

end

end FpgaFlow.Schema
