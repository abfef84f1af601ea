import FpgaFlow.Proofs.Tree.Growth

/-!
# The files that paths lead to

A write through a path changes the file that the path leads to
(`View.resolve_of_fileTarget`), and it keeps leading there while the tree grows.
The name of that file is the last step of the path, so that paths with different
endings lead to different files whatever comes before the ending
(`View.ending_of_fileTarget`).
-/

namespace FpgaFlow

open Text (splitOn)

namespace View

open FileTree (Grows)

/-- The way of a path passes a location, or ends there. -/
def Passes (v : View) (p : Path) (l : Location) : Prop :=
  ∃ way, way <+: p.steps ∧ walk v.tree (v.start p) way = .ok l

/-- A path leads to a file that holds a text. -/
def Holds (v : View) (p : Path) (text : String) : Prop :=
  ∃ l x, v.fileTarget p = .ok l ∧ v.tree.lookup l = some (.file (.text text) x)

theorem Passes.of_grows {v w : View} {p : Path} {l : Location} (h : v.Passes p l)
    (hg : v.tree.Grows w.tree) (hs : w.start p = v.start p) : w.Passes p l := by
  obtain ⟨way, hway, hw⟩ := h
  exact ⟨way, hway, hs ▸ walk_of_grows hg hw⟩

theorem step_of_isName {l : Location} {name : String} (h : FileTree.IsName name) :
    step l name = l ++ [name] := by
  rw [step, if_neg h.2.1, if_neg h.2.2.1]

/-- The end of a path to a name in a directory. -/
theorem walk_of_parentTarget {v : View} {p : Path} {d : Location} {name : String}
    (h : v.parentTarget p = .ok (d, some name)) :
    walk v.tree (v.start p) p.steps = .ok (d ++ [name]) := by
  obtain ⟨way, hway, hname, hw, hd⟩ := parentTarget_eq_ok_iff.1 h
  rw [hway, walk_append_eq_ok_iff]
  refine ⟨d, hw, ?_⟩
  rw [walk_cons_eq_ok_iff, step_of_isName hname]
  exact ⟨hd, rfl⟩

theorem text_ne_empty_of_parentTarget {v : View} {p : Path} {d : Location} {name : String}
    (h : v.parentTarget p = .ok (d, some name)) : p.text ≠ "" := by
  obtain ⟨way, hway, -⟩ := parentTarget_eq_ok_iff.1 h
  intro ht
  rw [Path.steps_of_text_eq_empty ht] at hway
  simp at hway

theorem resolve_of_fileTarget {v : View} {p : Path} {l : Location}
    (h : v.fileTarget p = .ok l) : v.resolve p = .ok l := by
  obtain ⟨d, name, hp, hslash, rfl, -⟩ := fileTarget_eq_ok_iff.1 h
  rw [resolve_eq_ok_iff]
  refine ⟨text_ne_empty_of_parentTarget hp, walk_of_parentTarget hp, ?_⟩
  rw [hslash]
  intro he
  cases he

theorem Holds.read {v : View} {p : Path} {text : String} (h : v.Holds p text) :
    v.read p = .ok text := by
  obtain ⟨l, x, hl, he⟩ := h
  have hfind := find_eq_ok_iff.2 ⟨l, resolve_of_fileTarget hl, he⟩
  rw [View.read, hfind]
  rfl

theorem parentTarget_of_grows {v w : View} (hg : v.tree.Grows w.tree) {p : Path}
    (hs : w.start p = v.start p) {d : Location} {name : String}
    (h : v.parentTarget p = .ok (d, some name)) : w.parentTarget p = .ok (d, some name) := by
  obtain ⟨way, hway, hname, hw, hd⟩ := parentTarget_eq_ok_iff.1 h
  exact parentTarget_eq_ok_iff.2 ⟨way, hway, hname, hs ▸ walk_of_grows hg hw, hg.directory hd⟩

theorem fileTarget_of_grows {v w : View} (hg : v.tree.Grows w.tree) {p : Path}
    (hs : w.start p = v.start p) {l : Location} (h : v.fileTarget p = .ok l)
    (hl : w.tree.lookup l ≠ some .directory) : w.fileTarget p = .ok l := by
  obtain ⟨d, name, hp, hslash, rfl, -⟩ := fileTarget_eq_ok_iff.1 h
  exact fileTarget_eq_ok_iff.2 ⟨d, name, parentTarget_of_grows hg hs hp, hslash, rfl, hl⟩

/-- A file stays what it is as long as nothing else is put at its location. -/
theorem Holds.of_grows {v w : View} (hg : v.tree.Grows w.tree) {p : Path}
    (hs : w.start p = v.start p) {text : String} (h : v.Holds p text)
    (hkeep : ∀ l, v.fileTarget p = .ok l → w.tree.lookup l = v.tree.lookup l) :
    w.Holds p text := by
  obtain ⟨l, x, hl, he⟩ := h
  have hw := hkeep l hl
  rw [he] at hw
  exact ⟨l, x, fileTarget_of_grows hg hs hl (by simp [hw]), hw⟩

/-! ### Where an absolute path leads -/

/-- A way that can be walked ends where its steps lead. -/
theorem eq_of_walk {t : FileTree} {l m : Location} {names : List String}
    (h : walk t l names = .ok m) : m = names.foldl step l := by
  induction names generalizing l with
  | nil => exact (Except.ok.inj h).symm
  | cons n ns ih => exact ih (walk_cons_eq_ok_iff.1 h).2

end View

/-- The location that an absolute path leads to, if it leads anywhere. -/
def Path.location (p : Path) : Location :=
  p.steps.foldl View.step []

namespace View

theorem location_of_resolve {v : View} {p : Path} {l : Location}
    (hp : p.isAbsolute = true) (h : v.resolve p = .ok l) : l = p.location := by
  obtain ⟨-, hwalk, -⟩ := resolve_eq_ok_iff.1 h
  rw [start_eq_nil hp] at hwalk
  exact eq_of_walk hwalk

theorem location_of_fileTarget {v : View} {p : Path} {l : Location}
    (hp : p.isAbsolute = true) (h : v.fileTarget p = .ok l) : l = p.location :=
  location_of_resolve hp (resolve_of_fileTarget h)

/-- On the way to a directory there are directories only. -/
theorem isDirectory_of_beginning {v : View} {q : Path} {l : Location}
    (hq : q.isAbsolute = true) {way : List String}
    (hwalk : walk v.tree [] way = .ok l) (hl : v.tree.lookup l = some .directory)
    (hsteps : q.steps <+: way) : v.isDirectory q = true := by
  obtain ⟨d, hd, hdirectory⟩ := walk_beginning hwalk hl hsteps
  refine isDirectory_iff.2 ⟨d, resolve_eq_ok_iff.2 ⟨?_, ?_, fun _ => hdirectory⟩, hdirectory⟩
  · exact Path.text_ne_empty_of_isAbsolute hq
  · rw [start_eq_nil hq]
    exact hd

/-! ### Endings -/

/-- What follows the last point of a name. -/
def ending (s : String) : Option (List Char) :=
  (splitOn '.' s.toList).getLast?

/-- What follows the last point of the last name of a location. -/
def endingAt (l : Location) : Option (List Char) :=
  l.getLast?.bind ending

/-- A file name with a point and an extension at its end. -/
def Extended (file ext : String) : Prop :=
  '.' ∉ ext.toList ∧ '/' ∉ ext.toList ∧ ∃ stem, file = stem ++ ("." ++ ext)

theorem toList_point_append (ext : String) : ("." ++ ext).toList = '.' :: ext.toList := by
  rw [String.toList_append]
  rfl

theorem Extended.ending {file ext : String} (h : Extended file ext) :
    ending file = some ext.toList := by
  obtain ⟨hpoint, -, stem, rfl⟩ := h
  rw [View.ending, String.toList_append, toList_point_append, Text.splitOn_append_cons,
    Text.splitOn_of_notMem hpoint, List.getLast?_concat]

/-- The extension of a file name is at the end of the last step, in whatever directory. -/
theorem Extended.steps_child {file ext : String} (h : Extended file ext) (dir : Path) :
    ∃ way last, (dir.child file).steps = way ++ [last] ∧ Extended last ext := by
  obtain ⟨hpoint, hslash, stem, rfl⟩ := h
  have hne : "." ++ ext ≠ "" := by
    intro he
    simpa [toList_point_append] using congrArg String.toList he
  have hfree : '/' ∉ ("." ++ ext).toList := by
    rw [toList_point_append, List.mem_cons, not_or]
    exact ⟨by decide, hslash⟩
  obtain ⟨way, last, hsteps⟩ := Path.steps_append (s := stem) hfree hne
  rw [Path.child]
  cases habs : (⟨stem ++ ("." ++ ext)⟩ : Path).isAbsolute with
  | true =>
    rw [Path.join_of_isAbsolute _ habs]
    exact ⟨way, _, hsteps, hpoint, hslash, last, rfl⟩
  | false =>
    rw [Path.steps_join dir habs, hsteps, ← List.append_assoc]
    exact ⟨_, _, rfl, hpoint, hslash, last, rfl⟩

/-- A name with an extension is no special name. -/
theorem Extended.step_eq {last ext : String} (h : Extended last ext) (hne : ext ≠ "")
    (d : Location) : step d last = d ++ [last] := by
  have hspecial : ∀ special : String, special = "." ∨ special = ".." → last ≠ special := by
    rintro special hspecial rfl
    have hending := h.ending
    rcases hspecial with rfl | rfl
    all_goals
      rw [show View.ending _ = some [] from rfl, Option.some.injEq] at hending
      exact Path.toList_ne_nil hne hending.symm
  rw [step, if_neg (hspecial _ (.inl rfl)), if_neg (hspecial _ (.inr rfl))]

/-- **The extension of a path is the extension of the location that it leads to.** -/
theorem ending_of_resolve {v : View} {dir : Path} {file ext : String} {l : Location}
    (hext : Extended file ext) (hne : ext ≠ "") (h : v.resolve (dir.child file) = .ok l) :
    endingAt l = some ext.toList := by
  obtain ⟨-, hwalk, -⟩ := resolve_eq_ok_iff.1 h
  obtain ⟨way, last, hsteps, hlast⟩ := hext.steps_child dir
  rw [hsteps, walk_append_eq_ok_iff] at hwalk
  obtain ⟨d, -, hd⟩ := hwalk
  rw [walk_cons_eq_ok_iff, walk_nil, hlast.step_eq hne, Except.ok.injEq] at hd
  rw [← hd.2, endingAt, List.getLast?_concat]
  exact hlast.ending

theorem endingAt_location {file ext : String} (hext : Extended file ext) (hne : ext ≠ "")
    (dir : Path) : endingAt (dir.child file).location = some ext.toList := by
  obtain ⟨way, last, hsteps, hlast⟩ := hext.steps_child dir
  rw [Path.location, hsteps, List.foldl_append, List.foldl_cons, List.foldl_nil,
    hlast.step_eq hne, endingAt, List.getLast?_concat]
  exact hlast.ending

theorem ending_of_fileTarget {v : View} {dir : Path} {file ext : String} {l : Location}
    (hext : Extended file ext) (h : v.fileTarget (dir.child file) = .ok l) :
    endingAt l = some ext.toList := by
  obtain ⟨d, name, hp, -, rfl, -⟩ := fileTarget_eq_ok_iff.1 h
  obtain ⟨way, hway, -⟩ := parentTarget_eq_ok_iff.1 hp
  obtain ⟨way', last, hsteps, hlast⟩ := hext.steps_child dir
  obtain ⟨-, hname⟩ := List.append_inj' (hway.symm.trans hsteps) rfl
  obtain rfl : name = last := by simpa using hname
  rw [endingAt, List.getLast?_concat]
  exact hlast.ending

end View

end FpgaFlow
