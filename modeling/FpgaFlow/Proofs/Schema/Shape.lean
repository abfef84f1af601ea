import FpgaFlow.Proofs.Toml.Moments
import Mathlib.Data.List.Forall2

/-!
# What readers know of a value

A shape says which keys a reader knows, level by level: a single value has none, and every item of
a list and every field of a record has a shape of its own.  `Shape.strip` takes all other keys out
of a value.

* `Agree R`: two readings give results in `R`, or refuse for reasons with the same words.
* `Reads s value R`: a reader agrees with itself on a value and on what is left of it when the keys
  that are not in `s` are taken out.

The readers of single values, lists and optional values read their shapes (`Plain.reads`,
`Reads.listOf`, `Reads.optional`).  For records there is one lemma for each way in which a field is
read (`Trimmed.required`, `Trimmed.optional`, `Trimmed.withDefault`), and one for the check of all
fields (`Trimmed.check`).
-/

namespace FpgaFlow

namespace Schema

open Decimal

/-- The keys that a reader knows, level by level. -/
inductive Shape where
  | leaf
  | items (item : Shape)
  | record (fields : List (String × Shape))
  /-- A record in which the text under a tag says which the other fields are. -/
  | tagged (tag : String) (variants : List (String × List (String × Shape)))

namespace Shape

/-- The fields that a tag stands for. -/
def chosen (variants : List (String × List (String × Shape))) : Datum → List (String × Shape)
  | .text s => (variants.lookup s).getD []
  | _ => []

/-- The fields that are known in a map. -/
def fields (entries : List (String × Datum)) : Shape → List (String × Shape)
  | record fs => fs
  | tagged tag variants =>
    (tag, leaf) :: ((entries.lookup tag).map (chosen variants)).getD []
  | _ => []

/-- The shape of the field at a position. After the last field there are single values. -/
def field (fs : List (String × Shape)) (i : Nat) : Shape :=
  (fs.map Prod.snd).getD i leaf

/-- The shape of the item at a position of a list. -/
def item (ds : List Datum) : Shape → Nat → Shape
  | items s, _ => s
  | record fs, i => field fs i
  | tagged _ variants, i + 1 => field ((ds.head?.map (chosen variants)).getD []) i
  | _, _ => leaf

mutual

/-- A value without the keys that are not known. -/
def strip (s : Shape) : Datum → Datum
  | .list ds => .list (stripItems (s.item ds) ds)
  | .map entries => .map (stripEntries (s.fields entries) entries)
  | d => d

def stripItems (shape : Nat → Shape) : List Datum → List Datum
  | [] => []
  | d :: ds => (shape 0).strip d :: stripItems (fun i => shape (i + 1)) ds

def stripEntries (fs : List (String × Shape)) : List (String × Datum) → List (String × Datum)
  | [] => []
  | (key, d) :: rest =>
    match fs.lookup key with
    | some s => (key, s.strip d) :: stripEntries fs rest
    | none => stripEntries fs rest

end

theorem stripItems_const (s : Shape) (ds : List Datum) :
    stripItems (fun _ => s) ds = ds.map s.strip := by
  induction ds with
  | nil => rfl
  | cons d ds ih => rw [stripItems, ih, List.map_cons]

theorem length_stripItems (shape : Nat → Shape) (ds : List Datum) :
    (stripItems shape ds).length = ds.length := by
  induction ds generalizing shape with
  | nil => rfl
  | cons d ds ih => rw [stripItems, List.length_cons, List.length_cons, ih]

theorem stripEntries_cons (fs : List (String × Shape)) (key : String) (d : Datum)
    (rest : List (String × Datum)) : stripEntries fs ((key, d) :: rest) =
      match fs.lookup key with
      | some s => (key, s.strip d) :: stripEntries fs rest
      | none => stripEntries fs rest := by
  rw [stripEntries]

/-- What is left under a key. -/
theorem lookup_stripEntries (fs : List (String × Shape)) (entries : List (String × Datum))
    (key : String) : (stripEntries fs entries).lookup key =
      (entries.lookup key).bind fun d => (fs.lookup key).map fun s => s.strip d := by
  induction entries with
  | nil => rfl
  | cons e rest ih =>
    obtain ⟨k, d⟩ := e
    rw [stripEntries_cons]
    by_cases hk : key = k
    · subst hk
      cases hs : fs.lookup key with
      | none =>
        rw [hs] at ih
        simp [ih]
      | some s => simp
    · have hb : (key == k) = false := beq_eq_false_iff_ne.2 hk
      cases hs : fs.lookup k with
      | none => simp [List.lookup_cons, hb, ih]
      | some s => simp [List.lookup_cons, hb, ih]

/-- Every key that is left is known. -/
theorem isSome_of_mem_stripEntries {fs : List (String × Shape)} {entries : List (String × Datum)}
    {e : String × Datum} (he : e ∈ stripEntries fs entries) : (fs.lookup e.1).isSome = true := by
  induction entries with
  | nil => cases he
  | cons e' rest ih =>
    rw [stripEntries_cons] at he
    cases hs : fs.lookup e'.1 with
    | none =>
      rw [hs] at he
      exact ih he
    | some s =>
      rw [hs] at he
      rcases List.mem_cons.1 he with rfl | he
      · rw [hs]
        rfl
      · exact ih he

/-- Without the tag, what is left are the fields that it stands for. -/
theorem filter_stripEntries (tag : String) (s : Shape) (fs : List (String × Shape))
    (entries : List (String × Datum)) :
    (stripEntries ((tag, s) :: fs) entries).filter (fun e => e.1 != tag) =
      stripEntries fs (entries.filter fun e => e.1 != tag) := by
  induction entries with
  | nil => rfl
  | cons e rest ih =>
    obtain ⟨key, d⟩ := e
    rw [stripEntries_cons]
    by_cases hkey : key = tag
    · subst hkey
      simp [ih]
    · have hb : (key == tag) = false := beq_eq_false_iff_ne.2 hkey
      have hfilter : ((key, d) :: rest).filter (fun e => e.1 != tag) =
          (key, d) :: rest.filter fun e => e.1 != tag := by simp [hkey]
      rw [hfilter, stripEntries_cons, List.lookup_cons, hb]
      cases fs.lookup key with
      | none => exact ih
      | some t => simp [hkey, ih]

end Shape

/-! ### Readings that agree -/

/-- Mismatches with the same words. -/
def Mismatch.Alike (m m' : Mismatch) : Prop :=
  ∀ number, m.message number = m'.message number

/-- Readings that give related results, or refuse for reasons with the same words. -/
inductive Agree {α β : Type} (R : α → β → Prop) : Except Mismatch α → Except Mismatch β → Prop
  | ok {a : α} {b : β} : R a b → Agree R (.ok a) (.ok b)
  | error {m m' : Mismatch} : m.Alike m' → Agree R (.error m) (.error m')

section

variable {α β γ δ : Type} {R R' : α → β → Prop} {S : γ → δ → Prop}
variable {x : Except Mismatch α} {y : Except Mismatch β}

theorem Mismatch.Alike.refl (m : Mismatch) : m.Alike m := fun _ => rfl

theorem Agree.refl (x : Except Mismatch α) : Agree Eq x x := by
  cases x with
  | error m => exact .error (.refl m)
  | ok a => exact .ok rfl

theorem Agree.mono (h : Agree R x y) (hR : ∀ a b, R a b → R' a b) : Agree R' x y := by
  cases h with
  | ok h => exact .ok (hR _ _ h)
  | error h => exact .error h

theorem Agree.bind_of_eq {f : α → Except Mismatch γ} {g : β → Except Mismatch δ} (h : Agree R x y)
    (hk : ∀ a b, x = .ok a → R a b → Agree S (f a) (g b)) : Agree S (x >>= f) (y >>= g) := by
  cases h with
  | ok h => exact hk _ _ rfl h
  | error h => exact .error h

theorem Agree.bind {f : α → Except Mismatch γ} {g : β → Except Mismatch δ} (h : Agree R x y)
    (hk : ∀ a b, R a b → Agree S (f a) (g b)) : Agree S (x >>= f) (y >>= g) :=
  h.bind_of_eq fun a b _ => hk a b

theorem Agree.map {f : α → γ} {g : β → δ} (h : Agree R x y) (hk : ∀ a b, R a b → S (f a) (g b)) :
    Agree S (x.map f) (y.map g) := by
  cases h with
  | ok h => exact .ok (hk _ _ h)
  | error h => exact .error h

/-- The two ways in which readings agree. -/
theorem Agree.cases (h : Agree R x y) :
    (∃ m m', x = .error m ∧ y = .error m' ∧ m.Alike m') ∨
      ∃ a b, x = .ok a ∧ y = .ok b ∧ R a b := by
  cases h with
  | ok h => exact .inr ⟨_, _, rfl, rfl, h⟩
  | error h => exact .inl ⟨_, _, rfl, rfl, h⟩

/-- Two readings that agree with a third one agree. -/
theorem Agree.join {x' : Except Mismatch α} (h : Agree R x y) (h' : Agree R x' y) :
    Agree (fun a a' => ∃ b, R a b ∧ R a' b) x x' := by
  cases h with
  | ok h =>
    cases h' with
    | ok h' => exact .ok ⟨_, h, h'⟩
  | error h =>
    cases h' with
    | error h' => exact .error fun number => (h number).trans (h' number).symm

end

/-- A reader that does not need the keys outside of a shape. -/
def Reads {α : Type} (s : Shape) (value : Reader α) (R : α → α → Prop) : Prop :=
  ∀ d, Toml.onlyMoments d = true → Agree R (value d) (value (s.strip d))

/-! ### Single values, lists and optional values -/

section

variable {α : Type} {s : Shape} {value : Reader α} {R : α → α → Prop}

/-- A reader that refuses every list and map in the same words. -/
def Plain (value : Reader α) : Prop :=
  ∃ expected, (∀ ds, value (.list ds) = .error (.wrongType (.list ds) expected)) ∧
    ∀ entries, value (.map entries) = .error (.wrongType (.map entries) expected)

theorem Plain.reads (h : Plain value) (s : Shape) : Reads s value Eq := by
  obtain ⟨expected, hlist, hmap⟩ := h
  intro d _
  cases d with
  | list ds =>
    rw [Shape.strip, hlist, hlist]
    exact .error fun _ => rfl
  | map entries =>
    rw [Shape.strip, hmap, hmap]
    exact .error fun _ => rfl
  | _ => exact .refl _

theorem plain_text : Plain text := ⟨_, fun _ => rfl, fun _ => rfl⟩

theorem plain_path : Plain path := ⟨_, fun _ => rfl, fun _ => rfl⟩

theorem plain_word32 : Plain word32 := ⟨_, fun _ => rfl, fun _ => rfl⟩

theorem plain_word64 : Plain word64 := ⟨_, fun _ => rfl, fun _ => rfl⟩

theorem plain_number : Plain number := ⟨_, fun _ => rfl, fun _ => rfl⟩

theorem Reads.fits (h : Reads s value R) : Reads s (Schema.fits value) fun _ _ => True := by
  intro d hd
  exact (h d hd).map fun _ _ _ => trivial

theorem Reads.optional (h : Reads s value Eq) : Reads s (Schema.optional value) Eq := by
  intro d hd
  have hsome : Agree Eq ((value d).map some) ((value (s.strip d)).map some) :=
    (h d hd).map fun _ _ heq => congrArg some heq
  cases d with
  | null => exact .refl _
  | _ => exact hsome

/-- Items that are read one by one. -/
theorem agree_mapM {item : Reader α} (h : Reads s item R) :
    ∀ {ds : List Datum}, (∀ d ∈ ds, Toml.onlyMoments d = true) →
      Agree (List.Forall₂ R) (ds.mapM item) ((ds.map s.strip).mapM item) := by
  intro ds
  induction ds with
  | nil => exact fun _ => .ok .nil
  | cons d ds ih =>
    intro hds
    rw [List.map_cons, List.mapM_cons, List.mapM_cons]
    refine (h d (hds d List.mem_cons_self)).bind fun a b hab => ?_
    refine (ih fun d' hd' => hds d' (List.mem_cons_of_mem _ hd')).bind fun as bs has => ?_
    exact .ok (.cons hab has)

/-- **A list of items of a shape.** -/
theorem Reads.listOf {item : Reader α} (h : Reads s item R) :
    Reads (.items s) (Schema.listOf item) (List.Forall₂ R) := by
  intro d hd
  cases d with
  | list ds =>
    have hitem : (Shape.items s).item ds = fun _ => s := rfl
    rw [Shape.strip, hitem, Shape.stripItems_const]
    exact agree_mapM h (Toml.onlyMomentsItems_iff.1 hd)
  | _ => exact .error fun _ => rfl

theorem Reads.listOf_eq {item : Reader α} (h : Reads s item Eq) :
    Reads (.items s) (Schema.listOf item) Eq := by
  intro d hd
  refine (h.listOf d hd).mono fun as bs hall => ?_
  rwa [List.forall₂_eq_eq_eq] at hall

end

/-! ### Records -/

/-- The members of a record, and what is left of them when the keys that are not known are taken
out. -/
structure Trimmed (fs : List (String × Shape)) (m m' : Members) : Prop where
  pairs : m'.pairs = Shape.stripEntries fs m.pairs
  short : m'.short = m.short
  long : m'.long = m.long
  moments : ∀ e ∈ m.pairs, Toml.onlyMoments e.2 = true

/-- In lists with the same keys, a key has values that belong together, or none in either. -/
theorem lookup_forall₂ {β γ : Type} {R : String → β → γ → Prop} {as : List (String × β)}
    {bs : List (String × γ)} (h : List.Forall₂ (fun a b => b.1 = a.1 ∧ R a.1 a.2 b.2) as bs)
    (key : String) : (as.lookup key = none ∧ bs.lookup key = none) ∨
      ∃ a b, as.lookup key = some a ∧ bs.lookup key = some b ∧ R key a b := by
  induction h with
  | nil => exact .inl ⟨rfl, rfl⟩
  | @cons a b as bs hab _ ih =>
    obtain ⟨k, x⟩ := a
    obtain ⟨k', y⟩ := b
    obtain ⟨rfl, hR⟩ : k' = k ∧ R k x y := hab
    by_cases hkey : key = k'
    · subst hkey
      exact .inr ⟨x, y, List.lookup_cons_self, List.lookup_cons_self, hR⟩
    · have hb : (key == k') = false := beq_eq_false_iff_ne.2 hkey
      simpa [List.lookup_cons, hb] using ih

/-- Rules for the fields of a record, in the order of the fields. -/
def Ruled (fs : List (String × Shape)) (rules : List (String × Reader Unit)) : Prop :=
  List.Forall₂ (fun f r => r.1 = f.1 ∧ Reads f.2 r.2 fun _ _ => True) fs rules

section

variable {α : Type} {fs : List (String × Shape)} {m m' : Members} {key : String} {s : Shape}
variable {value : Reader α} {R : α → α → Prop} {rules : List (String × Reader Unit)}

theorem Ruled.cons {rule : Reader Unit} (hrule : Reads s rule fun _ _ => True)
    (h : Ruled fs rules) : Ruled ((key, s) :: fs) ((key, rule) :: rules) :=
  List.Forall₂.cons ⟨rfl, hrule⟩ h

theorem Ruled.nil : Ruled [] [] := List.Forall₂.nil

/-- A key is known to the rules when it is known to the shape. -/
theorem Ruled.lookup (h : Ruled fs rules) (key : String) :
    (fs.lookup key = none ∧ rules.lookup key = none) ∨
      ∃ s rule, fs.lookup key = some s ∧ rules.lookup key = some rule ∧
        Reads s rule fun _ _ => True :=
  lookup_forall₂ (R := fun _ s rule => Reads s rule fun _ _ => True) h key

theorem Trimmed.lookup (h : Trimmed fs m m') (hkey : fs.lookup key = some s) :
    m'.pairs.lookup key = (m.pairs.lookup key).map s.strip := by
  rw [h.pairs, Shape.lookup_stripEntries, hkey]
  cases m.pairs.lookup key <;> rfl

theorem Trimmed.moments_of_lookup (h : Trimmed fs m m') {d : Datum}
    (hd : m.pairs.lookup key = some d) : Toml.onlyMoments d = true :=
  h.moments (key, d) (mem_of_lookup_eq_some hd)

theorem Trimmed.required (h : Trimmed fs m m') (hkey : fs.lookup key = some s)
    (hvalue : Reads s value R) : Agree R (m.required key value) (m'.required key value) := by
  rw [Members.required, Members.required, h.lookup hkey, h.short]
  cases hd : m.pairs.lookup key with
  | none => exact .error (.refl _)
  | some d => exact hvalue d (h.moments_of_lookup hd)

theorem Trimmed.optional (h : Trimmed fs m m') (hkey : fs.lookup key = some s)
    (hvalue : Reads s value Eq) : Agree Eq (m.optional key value) (m'.optional key value) := by
  rw [Members.optional, Members.optional, h.lookup hkey, h.short]
  cases hd : m.pairs.lookup key with
  | none => exact .refl _
  | some d => exact hvalue.optional d (h.moments_of_lookup hd)

theorem Trimmed.withDefault (h : Trimmed fs m m') (hkey : fs.lookup key = some s)
    (hvalue : Reads s value R) {default : α} (hdefault : R default default) :
    Agree R (m.withDefault key default value) (m'.withDefault key default value) := by
  rw [Members.withDefault, Members.withDefault, h.lookup hkey]
  cases hd : m.pairs.lookup key with
  | none => exact .ok hdefault
  | some d => exact hvalue d (h.moments_of_lookup hd)

/-- The entries with keys that are not known are passed over. -/
theorem agree_forM (hrules : Ruled fs rules) {pairs : List (String × Datum)}
    (hpairs : ∀ e ∈ pairs, Toml.onlyMoments e.2 = true) :
    Agree (fun _ _ => True)
      (pairs.forM fun (name, d) => match rules.lookup name with
        | some rule => rule d
        | none => .ok ())
      ((Shape.stripEntries fs pairs).forM fun (name, d) => match rules.lookup name with
        | some rule => rule d
        | none => .ok ()) := by
  induction pairs with
  | nil => exact .ok trivial
  | cons e rest ih =>
    obtain ⟨key, d⟩ := e
    have hrest := ih fun e' he' => hpairs e' (List.mem_cons_of_mem _ he')
    rw [Shape.stripEntries_cons]
    rcases hrules.lookup key with ⟨hfs, hnone⟩ | ⟨s, rule, hfs, hsome, hrule⟩
    · rw [hfs]
      simp only [List.forM_eq_forM, List.forM_cons, hnone] at hrest ⊢
      exact hrest
    · rw [hfs]
      simp only [List.forM_eq_forM, List.forM_cons, hsome] at hrest ⊢
      exact (hrule d (hpairs (key, d) List.mem_cons_self)).bind fun _ _ _ => hrest

theorem Trimmed.check (h : Trimmed fs m m') (hrules : Ruled fs rules) :
    Agree (fun _ _ => True) (m.check rules) (m'.check rules) := by
  rw [Members.check, Members.check, h.pairs, h.long]
  refine (agree_forM hrules h.moments).bind fun _ _ _ => ?_
  cases m.long with
  | none => exact .ok trivial
  | some mismatch => exact .error (.refl _)

theorem trimmed_of_map {entries : List (String × Datum)}
    (h : Toml.onlyMoments (.map entries) = true) :
    Trimmed fs ⟨entries, none, none⟩ ⟨Shape.stripEntries fs entries, none, none⟩ :=
  ⟨rfl, rfl, rfl, fun _ he => Toml.onlyMoments_of_mem h he⟩

theorem lookup_of_mem {β : Type} {fs : List (String × β)} (hnodup : (fs.map Prod.fst).Nodup)
    {f : String × β} (hf : f ∈ fs) : fs.lookup f.1 = some f.2 := by
  induction fs with
  | nil => cases hf
  | cons g fs ih =>
    rw [List.map_cons, List.nodup_cons] at hnodup
    rcases List.mem_cons.1 hf with rfl | hf
    · exact List.lookup_cons_self
    · have hne : f.1 ≠ g.1 := fun heq => hnodup.1 (heq ▸ List.mem_map_of_mem hf)
      rw [List.lookup_cons, beq_eq_false_iff_ne.2 hne]
      exact ih hnodup.2 hf

/-- Fields that are read by their positions, when some of the fields are behind. -/
theorem zip_stripItems_of_lookup {all : List (String × Shape)}
    (hall : ∀ f ∈ fs, all.lookup f.1 = some f.2) (ds : List Datum) :
    (fs.map Prod.fst).zip (Shape.stripItems (Shape.field fs) ds) =
      Shape.stripEntries all ((fs.map Prod.fst).zip ds) := by
  induction fs generalizing ds with
  | nil => rfl
  | cons f fs ih =>
    cases ds with
    | nil => rfl
    | cons d ds =>
      obtain ⟨key, s⟩ := f
      have hfirst : Shape.field ((key, s) :: fs) 0 = s := rfl
      have hlater : (fun i => Shape.field ((key, s) :: fs) (i + 1)) = Shape.field fs := rfl
      rw [Shape.stripItems, hfirst, hlater, List.map_cons, List.zip_cons_cons,
        ih fun f hf => hall f (List.mem_cons_of_mem _ hf), List.zip_cons_cons,
        Shape.stripEntries_cons, hall (key, s) List.mem_cons_self]

theorem zip_stripItems (hnodup : (fs.map Prod.fst).Nodup) (ds : List Datum) :
    (fs.map Prod.fst).zip (Shape.stripItems (Shape.field fs) ds) =
      Shape.stripEntries fs ((fs.map Prod.fst).zip ds) :=
  zip_stripItems_of_lookup (fun _ hf => lookup_of_mem hnodup hf) ds

/-- **The members of a record.** -/
theorem agree_members (fs : List (String × Shape)) (hnodup : (fs.map Prod.fst).Nodup)
    (surplus : Surplus) (what : String) {d : Datum} (hd : Toml.onlyMoments d = true) :
    Agree (Trimmed fs) (members surplus what (fs.map Prod.fst) d)
      (members surplus what (fs.map Prod.fst) ((Shape.record fs).strip d)) := by
  cases d with
  | map entries => exact .ok (trimmed_of_map hd)
  | list ds =>
    refine .ok ⟨zip_stripItems hnodup ds, ?_, ?_, ?_⟩
    · simp only [Shape.length_stripItems]
    · simp only [Shape.length_stripItems]
    · intro e he
      exact Toml.onlyMomentsItems_iff.1 hd e.2 (List.of_mem_zip he).2
  | _ => exact .error (.refl _)

end

end Schema

end FpgaFlow
