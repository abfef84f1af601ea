import FpgaFlow.Proofs.Path.Steps

/-!
# Growing trees

A tree grows when directories and files are added and files are overwritten, but
nothing goes away (`FileTree.Grows`).  A path that leads somewhere still leads
there in the grown tree (`View.resolve_of_grows`), and what is found there is
still a directory or still a file.

`FileTree.Changed s t F D` says where two trees differ: at the files `F`, and at
directories of `D` where nothing was before.
-/

namespace FpgaFlow

theorem bind_eq_ok_iff {ε α β : Type} {r : Except ε α} {f : α → Except ε β} {b : β} :
    r >>= f = .ok b ↔ ∃ a, r = .ok a ∧ f a = .ok b := by
  cases r with
  | error e => simp [bind, Except.bind]
  | ok a => simp [bind, Except.bind]

theorem isOk_eq_true_iff {ε α : Type} {r : Except ε α} : r.isOk = true ↔ ∃ a, r = .ok a := by
  cases r with
  | error e => simp [Except.isOk, Except.toBool]
  | ok a => simp [Except.isOk, Except.toBool]

theorem map_eq_ok_iff {ε α β : Type} {r : Except ε α} {f : α → β} {b : β} :
    r.map f = .ok b ↔ ∃ a, r = .ok a ∧ f a = b := by
  cases r with
  | error e => simp [Except.map]
  | ok a => simp [Except.map]

theorem exists_map_eq_ok_iff {ε α β : Type} {r : Except ε α} {f : α → β} :
    (∃ b, r.map f = .ok b) ↔ ∃ a, r = .ok a := by
  cases r with
  | error e => simp [Except.map]
  | ok a => simp [Except.map]

theorem mapM_eq_ok_iff {ε α β : Type} {g : α → Except ε β} {as : List α} {bs : List β} :
    as.mapM g = .ok bs ↔ as.map g = bs.map .ok := by
  induction as generalizing bs with
  | nil => cases bs <;> simp [pure, Except.pure]
  | cons a as ih =>
    rw [List.mapM_cons, bind_eq_ok_iff, List.map_cons]
    cases bs with
    | nil => simp [bind_eq_ok_iff, pure, Except.pure]
    | cons b bs => simp [bind_eq_ok_iff, pure, Except.pure, ih]

theorem exists_mapM_eq_ok_iff {ε α β : Type} {g : α → Except ε β} {as : List α} :
    (∃ bs, as.mapM g = .ok bs) ↔ ∀ a ∈ as, ∃ b, g a = .ok b := by
  simp only [mapM_eq_ok_iff]
  induction as with
  | nil => simp
  | cons a as ih =>
    rw [List.forall_mem_cons, ← ih, List.map_cons]
    constructor
    · rintro ⟨bs, h⟩
      obtain ⟨b, bs, rfl, hb, hbs⟩ := List.map_eq_cons_iff.1 h.symm
      exact ⟨⟨b, hb.symm⟩, bs, hbs.symm⟩
    · rintro ⟨⟨b, hb⟩, bs, hbs⟩
      exact ⟨b :: bs, by rw [List.map_cons, hb, hbs]⟩

theorem mem_of_mapM_eq_ok {ε α β : Type} {g : α → Except ε β} {as : List α} {bs : List β}
    (h : as.mapM g = .ok bs) {b : β} : b ∈ bs ↔ ∃ a ∈ as, g a = .ok b := by
  have hmem : (.ok b : Except ε β) ∈ bs.map .ok ↔ b ∈ bs := by simp
  rw [← hmem, ← mapM_eq_ok_iff.1 h, List.mem_map]

theorem eq_ok_of_toOption {ε α : Type} {r : Except ε α} {a : α} (h : r.toOption = some a) :
    r = .ok a := by
  cases r with
  | error e => cases h
  | ok b => rw [Option.some.inj h]

/-- What an entry is, apart from what a file holds. -/
def Entry.kind : Entry → Option Bool
  | .directory => none
  | .file _ executable => some executable

theorem Entry.eq_directory_of_kind {e : Entry} (h : e.kind = Entry.directory.kind) :
    e = .directory := by
  cases e with
  | directory => rfl
  | file c x => simp [Entry.kind] at h

theorem Entry.eq_file_of_kind {e : Entry} {c : Content} {x : Bool}
    (h : e.kind = (Entry.file c x).kind) : ∃ d, e = .file d x := by
  cases e with
  | directory => simp [Entry.kind] at h
  | file d y => exact ⟨d, by simpa [Entry.kind] using h⟩

namespace FileTree

/-- What is in `s` is still in `t`, except that files may hold something else. -/
def Grows (s t : FileTree) : Prop :=
  ∀ l e, s.lookup l = some e → ∃ f, t.lookup l = some f ∧ f.kind = e.kind

theorem Grows.refl (t : FileTree) : t.Grows t :=
  fun _ e h => ⟨e, h, rfl⟩

theorem Grows.trans {s t u : FileTree} (h : s.Grows t) (g : t.Grows u) : s.Grows u := by
  intro l e he
  obtain ⟨f, hf, hkind⟩ := h l e he
  obtain ⟨k, hk, hkind'⟩ := g l f hf
  exact ⟨k, hk, hkind'.trans hkind⟩

theorem Grows.directory {s t : FileTree} (h : s.Grows t) {l : Location}
    (hl : s.lookup l = some .directory) : t.lookup l = some .directory := by
  obtain ⟨f, hf, hkind⟩ := h l _ hl
  rw [hf, Entry.eq_directory_of_kind hkind]

theorem Grows.file {s t : FileTree} (h : s.Grows t) {l : Location} {c : Content} {x : Bool}
    (hl : s.lookup l = some (.file c x)) : ∃ d, t.lookup l = some (.file d x) := by
  obtain ⟨f, hf, hkind⟩ := h l _ hl
  obtain ⟨d, rfl⟩ := Entry.eq_file_of_kind hkind
  exact ⟨d, hf⟩

/-- Putting an entry where nothing is, or an entry of the same kind, lets a tree grow. -/
theorem grows_put {t : FileTree} {l : Location} {e : Entry}
    (h : ∀ f, t.lookup l = some f → e.kind = f.kind) : t.Grows (t.put l e) := by
  by_cases ha : t.Accepts l
  · intro m f hf
    rw [lookup_put ha]
    split
    next hm => exact ⟨e, rfl, h f (hm ▸ hf)⟩
    next => exact ⟨f, hf, rfl⟩
  · rw [put_of_not_accepts ha]
    exact Grows.refl t

/-! ### Where trees differ -/

/-- The trees differ at `files` only, and at `directories`, where nothing was before. -/
def Changed (s t : FileTree) (files directories : Location → Prop) : Prop :=
  ∀ l, t.lookup l = s.lookup l ∨ files l ∨
    (directories l ∧ s.lookup l = none ∧ t.lookup l = some .directory)

theorem Changed.refl (t : FileTree) (files directories : Location → Prop) :
    t.Changed t files directories :=
  fun _ => .inl rfl

theorem Changed.mono {s t : FileTree} {F G D E : Location → Prop} (h : s.Changed t F D)
    (hf : ∀ l, F l → G l) (hd : ∀ l, D l → E l) : s.Changed t G E := by
  intro l
  rcases h l with h | h | ⟨hdir, hrest⟩
  · exact .inl h
  · exact .inr (.inl (hf l h))
  · exact .inr (.inr ⟨hd l hdir, hrest⟩)

theorem Changed.trans {s t u : FileTree} {F D : Location → Prop} (h : s.Changed t F D)
    (g : t.Changed u F D) : s.Changed u F D := by
  intro l
  rcases g l with hu | hu | ⟨hdir, hnone, hu⟩
  · rw [hu]
    exact h l
  · exact .inr (.inl hu)
  · rcases h l with ht | ht | ⟨-, -, ht⟩
    · exact .inr (.inr ⟨hdir, ht ▸ hnone, hu⟩)
    · exact .inr (.inl ht)
    · rw [hnone] at ht
      cases ht

theorem changed_put {t : FileTree} (l : Location) (e : Entry) (D : Location → Prop) :
    t.Changed (t.put l e) (· = l) D := by
  intro m
  by_cases ha : t.Accepts l
  · rw [lookup_put ha]
    split
    next hm => exact .inr (.inl hm)
    next => exact .inl rfl
  · exact .inl (by rw [put_of_not_accepts ha])

theorem changed_put_directory {t : FileTree} {l : Location} (ha : t.Accepts l)
    (hl : t.lookup l = none) (F : Location → Prop) :
    t.Changed (t.put l .directory) F (· = l) := by
  intro m
  rw [lookup_put ha]
  split
  next hm => exact .inr (.inr ⟨hm, hm ▸ hl, rfl⟩)
  next => exact .inl rfl

end FileTree

namespace View

open FileTree (Grows)

/-! ### What is at the end of a path -/

theorem find_eq_ok_iff {v : View} {p : Path} {e : Entry} :
    v.find p = .ok e ↔ ∃ l, v.resolve p = .ok l ∧ v.tree.lookup l = some e := by
  rw [find]
  cases hr : v.resolve p with
  | error err => simp [bind, Except.bind]
  | ok l =>
    simp only [bind, Except.bind, Except.ok.injEq, exists_eq_left']
    cases v.tree.lookup l with
    | none => simp
    | some f => simp

theorem exists_iff_find {v : View} {p : Path} : v.exists_ p = true ↔ ∃ e, v.find p = .ok e := by
  rw [exists_, isOk_eq_true_iff]

theorem exists_iff {v : View} {p : Path} :
    v.exists_ p = true ↔ ∃ l e, v.resolve p = .ok l ∧ v.tree.lookup l = some e := by
  rw [exists_iff_find, exists_comm]
  exact exists_congr fun e => find_eq_ok_iff

theorem isDirectory_iff_find {v : View} {p : Path} :
    v.isDirectory p = true ↔ v.find p = .ok .directory := by
  rw [isDirectory]
  split
  next h => simp [h]
  next h => simpa using h

theorem isDirectory_iff {v : View} {p : Path} :
    v.isDirectory p = true ↔ ∃ l, v.resolve p = .ok l ∧ v.tree.lookup l = some .directory :=
  isDirectory_iff_find.trans find_eq_ok_iff

theorem isFile_iff_find {v : View} {p : Path} :
    v.isFile p = true ↔ ∃ c x, v.find p = .ok (.file c x) := by
  rw [isFile]
  split
  next c x h => simp [h]
  next h => simpa using h

theorem isFile_iff {v : View} {p : Path} :
    v.isFile p = true ↔
      ∃ l c x, v.resolve p = .ok l ∧ v.tree.lookup l = some (.file c x) := by
  rw [isFile_iff_find]
  constructor
  · rintro ⟨c, x, h⟩
    obtain ⟨l, hl⟩ := find_eq_ok_iff.1 h
    exact ⟨l, c, x, hl⟩
  · rintro ⟨l, c, x, hl⟩
    exact ⟨c, x, find_eq_ok_iff.2 ⟨l, hl⟩⟩

/-! ### Ways in a grown tree -/

theorem walk_cons_eq_ok_iff {t : FileTree} {l m : Location} {name : String}
    {names : List String} : walk t l (name :: names) = .ok m ↔
      t.lookup l = some .directory ∧ walk t (step l name) names = .ok m := by
  rw [walk]
  cases he : expectDirectory t l with
  | error e =>
    have hne : t.lookup l ≠ some .directory := by
      intro h
      rw [(expectDirectory_eq_ok_iff (u := ())).2 h] at he
      cases he
    simp [bind, Except.bind, hne]
  | ok u => simp [bind, Except.bind, expectDirectory_eq_ok_iff.1 he]

theorem walk_append_eq_ok_iff {t : FileTree} {l m : Location} {xs ys : List String} :
    walk t l (xs ++ ys) = .ok m ↔ ∃ d, walk t l xs = .ok d ∧ walk t d ys = .ok m := by
  rw [walk_append]
  cases walk t l xs with
  | error e => simp [Except.bind]
  | ok d => simp [Except.bind]

theorem walk_of_grows {s t : FileTree} (h : s.Grows t) {l m : Location} {names : List String}
    (hw : walk s l names = .ok m) : walk t l names = .ok m := by
  induction names generalizing l with
  | nil => exact hw
  | cons n ns ih =>
    rw [walk_cons_eq_ok_iff] at hw ⊢
    exact ⟨h.directory hw.1, ih hw.2⟩

/-- Every location on a way through directories is a directory, and so is its end when a
directory is there. -/
theorem walk_beginning {t : FileTree} {l m : Location} {names ways : List String}
    (hw : walk t l names = .ok m) (hm : t.lookup m = some .directory) (hp : ways <+: names) :
    ∃ d, walk t l ways = .ok d ∧ t.lookup d = some .directory := by
  obtain ⟨rest, rfl⟩ := hp
  obtain ⟨d, hd, hrest⟩ := walk_append_eq_ok_iff.1 hw
  refine ⟨d, hd, ?_⟩
  cases rest with
  | nil =>
    rw [walk_nil, Except.ok.injEq] at hrest
    rw [hrest, hm]
  | cons n ns => exact (walk_cons_eq_ok_iff.1 hrest).1

theorem start_eq_nil {p : Path} (h : p.isAbsolute = true) (v : View) : v.start p = [] := by
  rw [start, if_pos h]

theorem resolve_eq_ok_iff {v : View} {p : Path} {l : Location} :
    v.resolve p = .ok l ↔ p.text ≠ "" ∧ walk v.tree (v.start p) p.steps = .ok l ∧
      (p.endsInSlash = true → v.tree.lookup l = some .directory) := by
  rw [resolve]
  by_cases ht : p.text = ""
  · simp [ht]
  · rw [if_neg ht]
    by_cases hs : p.endsInSlash = true
    · rw [if_pos hs, walk_append_eq_ok_iff]
      simp only [walk_cons_eq_ok_iff, walk_nil, step, if_true, Except.ok.injEq]
      constructor
      · rintro ⟨d, hw, hd, rfl⟩
        exact ⟨ht, hw, fun _ => hd⟩
      · rintro ⟨-, hw, hd⟩
        exact ⟨l, hw, hd hs, rfl⟩
    · rw [if_neg hs]
      simp [ht, hs]

/-- **A path still leads where it led** when the tree has grown. -/
theorem resolve_of_grows {v w : View} (h : v.tree.Grows w.tree) {p : Path}
    (hs : w.start p = v.start p) {l : Location} (hr : v.resolve p = .ok l) :
    w.resolve p = .ok l := by
  obtain ⟨ht, hw, hd⟩ := resolve_eq_ok_iff.1 hr
  exact resolve_eq_ok_iff.2 ⟨ht, hs ▸ walk_of_grows h hw, fun he => h.directory (hd he)⟩

theorem exists_of_grows {v w : View} (h : v.tree.Grows w.tree) {p : Path}
    (hs : w.start p = v.start p) (hp : v.exists_ p = true) : w.exists_ p = true := by
  obtain ⟨l, e, hr, hl⟩ := exists_iff.1 hp
  obtain ⟨f, hf, -⟩ := h l e hl
  exact exists_iff.2 ⟨l, f, resolve_of_grows h hs hr, hf⟩

theorem isDirectory_of_grows {v w : View} (h : v.tree.Grows w.tree) {p : Path}
    (hs : w.start p = v.start p) (hp : v.isDirectory p = true) : w.isDirectory p = true := by
  obtain ⟨l, hr, hl⟩ := isDirectory_iff.1 hp
  exact isDirectory_iff.2 ⟨l, resolve_of_grows h hs hr, h.directory hl⟩

theorem isFile_of_grows {v w : View} (h : v.tree.Grows w.tree) {p : Path}
    (hs : w.start p = v.start p) (hp : v.isFile p = true) : w.isFile p = true := by
  obtain ⟨l, c, x, hr, hl⟩ := isFile_iff.1 hp
  obtain ⟨d, hd⟩ := h.file hl
  exact isFile_iff.2 ⟨l, d, x, resolve_of_grows h hs hr, hd⟩

end View

end FpgaFlow
