import FpgaFlow.Proofs.Tree.Below

/-!
# Trees in which some files are overwritten

When a tree grows and only some of its files are overwritten
(`View.Overwrites`), a path that leads elsewhere finds the file that it found
before (`Overwrites.find`), and it finds no new one unless it leads through
directories that are new (`Overwrites.sameFile`).
-/

namespace FpgaFlow

open FileTree (IsName)

namespace View

/-- The tree grew, and of the files that were there only those at the ends of some paths may hold
something else. -/
structure Overwrites (files : List Path) (v w : View) : Prop where
  grows : v.tree.Grows w.tree
  changed : v.tree.Changed w.tree (fun l => ∃ q ∈ files, w.resolve q = .ok l) fun _ => True

/-- Two paths never lead to one place. -/
def Distinct (v : View) (p q : Path) : Prop :=
  ∀ l, v.resolve p = .ok l → v.resolve q ≠ .ok l

/-- A path finds the same file, or none, in two trees. -/
def SameFile (v w : View) (p : Path) : Prop :=
  ∀ c x, w.find p = .ok (.file c x) ↔ v.find p = .ok (.file c x)

variable {files : List Path} {u v w : View} {p q dir : Path} {l : Location} {c : Content} {x : Bool}

theorem Overwrites.trans (habs : ∀ f ∈ files, f.isAbsolute = true) (h : Overwrites files u v)
    (g : Overwrites files v w) : Overwrites files u w := by
  refine ⟨h.grows.trans g.grows, (h.changed.mono ?_ fun _ => id).trans g.changed⟩
  rintro l ⟨f, hf, hl⟩
  refine ⟨f, hf, resolve_of_grows g.grows ?_ hl⟩
  rw [start_eq_nil (habs f hf), start_eq_nil (habs f hf)]

theorem resolve_congr (hp : p.isAbsolute = true) (ht : w.tree = v.tree) :
    w.resolve p = v.resolve p := by
  rw [resolve, resolve, start_eq_nil hp, start_eq_nil hp, ht]

theorem Distinct.congr (hp : p.isAbsolute = true) (hq : q.isAbsolute = true) (h : v.Distinct p q)
    (ht : w.tree = v.tree) : w.Distinct p q := by
  intro l hl
  rw [resolve_congr hp ht] at hl
  rw [resolve_congr hq ht]
  exact h l hl

/-- It does not matter from where the trees are seen. -/
theorem Overwrites.congr (habs : ∀ f ∈ files, f.isAbsolute = true) {v' w' : View}
    (h : Overwrites files v w) (hv : v'.tree = v.tree) (hw : w'.tree = w.tree) :
    Overwrites files v' w' := by
  constructor
  case grows =>
    rw [hv, hw]
    exact h.grows
  case changed =>
    rw [hv, hw]
    refine h.changed.mono ?_ fun _ => id
    rintro l ⟨f, hf, hl⟩
    exact ⟨f, hf, (resolve_congr (habs f hf) hw).trans hl⟩

/-- What a location holds that none of the paths leads to. -/
theorem Overwrites.lookup_iff (h : Overwrites files v w) (hl : ∀ f ∈ files, w.resolve f ≠ .ok l) :
    w.tree.lookup l = some (.file c x) ↔ v.tree.lookup l = some (.file c x) := by
  rcases h.changed l with hsame | ⟨f, hf, hfl⟩ | ⟨-, hnone, hdir⟩
  · rw [hsame]
  · exact absurd hfl (hl f hf)
  · simp [hnone, hdir]

theorem Overwrites.find (h : Overwrites files v w) (hs : w.start p = v.start p)
    (hp : ∀ f ∈ files, w.Distinct p f) (hv : v.find p = .ok (.file c x)) :
    w.find p = .ok (.file c x) := by
  obtain ⟨l, hl, hlookup⟩ := find_eq_ok_iff.1 hv
  have hw := resolve_of_grows h.grows hs hl
  exact find_eq_ok_iff.2 ⟨l, hw, (h.lookup_iff fun f hf => hp f hf l hw).2 hlookup⟩

theorem read_eq_ok_iff {text : String} :
    v.read p = .ok text ↔ ∃ x, v.find p = .ok (.file (.text text) x) := by
  rw [read]
  cases v.find p with
  | error e => simp [bind, Except.bind]
  | ok entry =>
    cases entry with
    | directory => simp [bind, Except.bind]
    | file c x => cases c <;> simp [bind, Except.bind]

theorem Overwrites.read (h : Overwrites files v w) (hs : w.start p = v.start p)
    (hp : ∀ f ∈ files, w.Distinct p f) {text : String} (hv : v.read p = .ok text) :
    w.read p = .ok text := by
  obtain ⟨x, hx⟩ := read_eq_ok_iff.1 hv
  exact read_eq_ok_iff.2 ⟨x, h.find hs hp hx⟩

theorem SameFile.isFile (h : SameFile v w p) : w.isFile p = v.isFile p := by
  rw [Bool.eq_iff_iff, isFile_iff_find, isFile_iff_find]
  exact exists_congr fun c => exists_congr (h c)

/-- A path that leads to a file only if it led to one before finds the same file. -/
theorem Overwrites.sameFile (h : Overwrites files v w) (hs : w.start p = v.start p)
    (hp : ∀ f ∈ files, w.Distinct p f) (hnew : w.isFile p = true → v.isFile p = true) :
    SameFile v w p := by
  intro c x
  refine ⟨fun hw => ?_, h.find hs hp⟩
  obtain ⟨d, y, hv⟩ := isFile_iff_find.1 (hnew (isFile_iff_find.2 ⟨c, x, hw⟩))
  have hsame := h.find hs hp hv
  rw [hw, Except.ok.injEq] at hsame
  rw [hv, hsame]

/-- Below a directory that was there no new file is found but for those that were written. -/
theorem Overwrites.sameFile_down (h : Overwrites files v w) (hdir : dir.isAbsolute = true)
    (hthere : v.isDirectory dir = true) {r : Location} (hr : ∀ s ∈ r, IsName s)
    (hfiles : ∀ f ∈ files, w.Distinct (down dir r) f) : SameFile v w (down dir r) := by
  have hs : w.start (down dir r) = v.start (down dir r) := by
    rw [start_eq_nil (isAbsolute_down hdir r), start_eq_nil (isAbsolute_down hdir r)]
  refine h.sameFile hs hfiles fun hw => ?_
  obtain ⟨d, hd, hdirectory⟩ := isDirectory_iff.1 hthere
  have hstart : w.start dir = v.start dir := by rw [start_eq_nil hdir, start_eq_nil hdir]
  have hanchored := Path.anchored_of_isAbsolute hdir
  have hd' := resolve_of_grows h.grows hstart hd
  have hdirectory' := h.grows.directory hdirectory
  obtain ⟨c, x, hfind⟩ := isFile_iff_find.1 hw
  obtain ⟨l, hl, -⟩ := find_eq_ok_iff.1 hfind
  have hlookup := (find_down hanchored hr hd' hdirectory').1 hfind
  obtain rfl := eq_of_resolve_down hanchored hr hd' hl
  refine isFile_iff_find.2 ⟨c, x, (find_down hanchored hr hd hdirectory).2 ?_⟩
  exact (h.lookup_iff fun f hf => hfiles f hf _ hl).1 hlookup

end View

end FpgaFlow
