import FpgaFlow.FileTree
import FpgaFlow.Path

/-!
# Where paths lead

A view is a file tree seen from one of its directories. A path is walked name by name from the root
or from that directory: `..` leads to the directory above, and nothing but a directory can be walked
through (`walk`). A path that ends in a slash leads to a directory only.

What can go wrong on the way is an `IoError`. Everything here only looks; `fileTarget` and
`directoryTarget` say which location a write through a path would change.
-/

namespace FpgaFlow

/-- What can go wrong with a file or directory. -/
inductive IoError where
  | notFound
  | notADirectory
  | isADirectory
  | alreadyExists
  | invalidData
  | permissionDenied
  deriving DecidableEq, Repr

/-- The words for what went wrong. -/
def IoError.message : IoError → String
  | notFound => "No such file or directory (os error 2)"
  | notADirectory => "Not a directory (os error 20)"
  | isADirectory => "Is a directory (os error 21)"
  | alreadyExists => "File exists (os error 17)"
  | invalidData => "stream did not contain valid UTF-8"
  | permissionDenied => "Permission denied (os error 13)"

/-- The names, `.` and `..` on the way that a path describes. -/
def Path.steps (p : Path) : List String :=
  p.pieces.filter (· ≠ "")

/-- Whether a path can only lead to a directory because it ends in a slash. -/
def Path.endsInSlash (p : Path) : Bool :=
  p.text.toList.getLast? == some '/'

/-- The path of a location. -/
def Path.ofLocation (l : Location) : Path :=
  ⟨"/" ++ String.intercalate "/" l⟩

/-- A file tree, seen from a directory. -/
structure View where
  tree : FileTree
  directory : Location

namespace View

/-- One step from a directory. -/
def step (l : Location) (name : String) : Location :=
  if name = "." then l else if name = ".." then l.dropLast else l ++ [name]

/-- Checks that there is a directory at a location. -/
def expectDirectory (t : FileTree) (l : Location) : Except IoError Unit :=
  match t.lookup l with
  | some .directory => .ok ()
  | some (.file ..) => .error .notADirectory
  | none => .error .notFound

/-- The location at the end of a way. Nothing need be there, but every step starts in a
directory. -/
def walk (t : FileTree) : Location → List String → Except IoError Location
  | l, [] => .ok l
  | l, name :: rest => do
    expectDirectory t l
    walk t (step l name) rest

/-- Where a path starts. -/
def start (v : View) (p : Path) : Location :=
  if p.isAbsolute then [] else v.directory

/-- The location that a path leads to. Nothing need be there. -/
def resolve (v : View) (p : Path) : Except IoError Location :=
  if p.text = "" then .error .notFound
  else walk v.tree (v.start p) (if p.endsInSlash then p.steps ++ ["."] else p.steps)

/-- What is at the end of a path. -/
def find (v : View) (p : Path) : Except IoError Entry := do
  let l ← v.resolve p
  match v.tree.lookup l with
  | some e => .ok e
  | none => .error .notFound

def exists_ (v : View) (p : Path) : Bool :=
  (v.find p).isOk

def isDirectory (v : View) (p : Path) : Bool :=
  match v.find p with
  | .ok .directory => true
  | _ => false

def isFile (v : View) (p : Path) : Bool :=
  match v.find p with
  | .ok (.file ..) => true
  | _ => false

def isExecutable (v : View) (p : Path) : Bool :=
  match v.find p with
  | .ok (.file _ executable) => executable
  | _ => false

/-- The text of the file at the end of a path. -/
def read (v : View) (p : Path) : Except IoError String := do
  match ← v.find p with
  | .file (.text s) _ => .ok s
  | .file (.bytes _) _ => .error .invalidData
  | .directory => .error .isADirectory

/-- The names in the directory at the end of a path, in ascending order. -/
def list (v : View) (p : Path) : Except IoError (List String) := do
  let l ← v.resolve p
  expectDirectory v.tree l
  return v.tree.names l

/-- The same tree, seen from the directory at the end of a path. -/
def enter (v : View) (p : Path) : Except IoError View := do
  let l ← v.resolve p
  expectDirectory v.tree l
  return { v with directory := l }

/-- The directory and the name that a path ends with. -/
def parentTarget (v : View) (p : Path) : Except IoError (Location × Option String) :=
  if p.text = "" then .error .notFound
  else match p.steps.getLast? with
    | none => .ok ([], none)
    | some name => do
      let l ← walk v.tree (v.start p) p.steps.dropLast
      expectDirectory v.tree l
      return (l, if name = "." ∨ name = ".." then none else some name)

/-- The location of the file that a write through a path changes. -/
def fileTarget (v : View) (p : Path) : Except IoError Location := do
  match ← v.parentTarget p with
  | (_, none) => .error .isADirectory
  | (l, some name) =>
    if p.endsInSlash then .error .isADirectory
    else match v.tree.lookup (l ++ [name]) with
      | some .directory => .error .isADirectory
      | _ => .ok (l ++ [name])

/-- The location of the directory that a path would create. -/
def directoryTarget (v : View) (p : Path) : Except IoError Location := do
  match ← v.parentTarget p with
  | (_, none) => .error .alreadyExists
  | (l, some name) => match v.tree.lookup (l ++ [name]) with
    | some _ => .error .alreadyExists
    | none => .ok (l ++ [name])

/-! ### Where ways lead -/

theorem expectDirectory_eq_ok_iff {t : FileTree} {l : Location} {u : Unit} :
    expectDirectory t l = .ok u ↔ t.lookup l = some .directory := by
  unfold expectDirectory
  split <;> simp_all

theorem walk_nil (t : FileTree) (l : Location) : walk t l [] = .ok l := rfl

/-- A way of two parts leads where its second part leads from the end of the first. -/
theorem walk_append (t : FileTree) (l : Location) (xs ys : List String) :
    walk t l (xs ++ ys) = (walk t l xs).bind fun m => walk t m ys := by
  induction xs generalizing l with
  | nil => rfl
  | cons x xs ih =>
    simp only [List.cons_append, walk, ih]
    cases expectDirectory t l <;> rfl

/-- What stands between slashes and is not special is a name. -/
theorem isName_of_mem_steps {p : Path} {s : String} (h : s ∈ p.steps) (hd : s ≠ ".")
    (hu : s ≠ "..") : FileTree.IsName s := by
  unfold Path.steps Path.pieces at h
  obtain ⟨hmem, hne⟩ := List.mem_filter.1 h
  obtain ⟨piece, hp, rfl⟩ := List.mem_map.1 hmem
  refine ⟨by simpa using hne, hd, hu, ?_⟩
  simpa using Text.notMem_of_mem_splitOn hp

/-- A path ends with a name in a directory when its last step is no special name and the steps
before it lead to a directory. -/
theorem parentTarget_eq_ok_iff {v : View} {p : Path} {d : Location} {name : String} :
    v.parentTarget p = .ok (d, some name) ↔
      ∃ way, p.steps = way ++ [name] ∧ FileTree.IsName name ∧
        walk v.tree (v.start p) way = .ok d ∧ v.tree.lookup d = some .directory := by
  unfold parentTarget
  split
  next ht =>
    have hs : p.steps = [] := by simp [Path.steps, Path.pieces, ht, Text.splitOn]
    simp [hs]
  next ht =>
    split
    next hl =>
      rw [List.getLast?_eq_none_iff] at hl
      simp [hl]
    next last hl =>
      obtain ⟨way, hway⟩ := List.getLast?_eq_some_iff.1 hl
      have hmem : last ∈ p.steps := by simp [hway]
      rw [hway, List.dropLast_concat]
      constructor
      · intro h
        cases hw : walk v.tree (v.start p) way with
        | error e => simp [hw, bind, Except.bind] at h
        | ok m =>
          cases he : expectDirectory v.tree m with
          | error e => simp [hw, he, bind, Except.bind] at h
          | ok u =>
            by_cases hn : last = "." ∨ last = ".."
            · simp [hw, he, hn, bind, Except.bind, pure, Except.pure] at h
            · simp only [hw, he, hn, bind, Except.bind, pure, Except.pure, if_false,
                Except.ok.injEq, Prod.mk.injEq, Option.some.injEq] at h
              obtain ⟨rfl, rfl⟩ := h
              rw [not_or] at hn
              exact ⟨way, rfl, isName_of_mem_steps hmem hn.1 hn.2, hw,
                expectDirectory_eq_ok_iff.1 he⟩
      · rintro ⟨way', heq, hname, hw, hdir⟩
        obtain ⟨rfl, hlast⟩ := List.append_inj' heq rfl
        obtain rfl : last = name := by simpa using hlast
        have he : expectDirectory v.tree d = .ok () := expectDirectory_eq_ok_iff.2 hdir
        simp [hw, he, hname.2.1, hname.2.2.1, bind, Except.bind, pure, Except.pure]

/-- A write through a path changes a location that is no directory. -/
theorem fileTarget_eq_ok_iff {v : View} {p : Path} {l : Location} :
    v.fileTarget p = .ok l ↔ ∃ d name, v.parentTarget p = .ok (d, some name) ∧
      p.endsInSlash = false ∧ l = d ++ [name] ∧ v.tree.lookup l ≠ some .directory := by
  unfold fileTarget
  cases hp : v.parentTarget p with
  | error e => simp [bind, Except.bind]
  | ok q =>
    obtain ⟨d, n⟩ := q
    cases n with
    | none => simp [bind, Except.bind]
    | some name =>
      simp only [bind, Except.bind, Except.ok.injEq, Prod.mk.injEq, Option.some.injEq]
      split
      next hs => simp [hs]
      next hs =>
        split
        next hdir =>
          constructor
          · intro h
            simp at h
          · rintro ⟨_, _, ⟨rfl, rfl⟩, -, rfl, hnot⟩
            exact absurd hdir hnot
        next hnot =>
          constructor
          · intro h
            rw [Except.ok.injEq] at h
            subst h
            exact ⟨d, name, ⟨rfl, rfl⟩, by simpa using hs, rfl, fun h => hnot h⟩
          · rintro ⟨_, _, ⟨rfl, rfl⟩, -, rfl, -⟩
            rfl

/-- A directory is made where nothing is. -/
theorem directoryTarget_eq_ok_iff {v : View} {p : Path} {l : Location} :
    v.directoryTarget p = .ok l ↔ ∃ d name, v.parentTarget p = .ok (d, some name) ∧
      l = d ++ [name] ∧ v.tree.lookup l = none := by
  unfold directoryTarget
  cases hp : v.parentTarget p with
  | error e => simp [bind, Except.bind]
  | ok q =>
    obtain ⟨d, n⟩ := q
    cases n with
    | none => simp [bind, Except.bind]
    | some name =>
      simp only [bind, Except.bind, Except.ok.injEq, Prod.mk.injEq, Option.some.injEq]
      split
      next e he =>
        constructor
        · intro h
          simp at h
        · rintro ⟨_, _, ⟨rfl, rfl⟩, rfl, hnone⟩
          simp [hnone] at he
      next hnone =>
        constructor
        · intro h
          rw [Except.ok.injEq] at h
          subst h
          exact ⟨d, name, ⟨rfl, rfl⟩, rfl, hnone⟩
        · rintro ⟨_, _, ⟨rfl, rfl⟩, rfl, -⟩
          rfl

theorem accepts_of_parentTarget {v : View} {p : Path} {d : Location} {name : String}
    (h : v.parentTarget p = .ok (d, some name))
    (hnot : v.tree.lookup (d ++ [name]) ≠ some .directory) : v.tree.Accepts (d ++ [name]) := by
  obtain ⟨_, -, hname, -, hdir⟩ := parentTarget_eq_ok_iff.1 h
  refine ⟨by simp, ?_, by simpa using hdir, hnot⟩
  intro s hs
  rcases List.mem_append.1 hs with hs | hs
  · exact FileTree.isName_of_lookup (t := v.tree) (by simp [hdir]) hs
  · rw [List.mem_singleton.1 hs]
    exact hname

theorem accepts_of_fileTarget {v : View} {p : Path} {l : Location} (h : v.fileTarget p = .ok l) :
    v.tree.Accepts l := by
  obtain ⟨d, name, hp, -, rfl, hnot⟩ := fileTarget_eq_ok_iff.1 h
  exact accepts_of_parentTarget hp hnot

theorem accepts_of_directoryTarget {v : View} {p : Path} {l : Location}
    (h : v.directoryTarget p = .ok l) : v.tree.Accepts l := by
  obtain ⟨d, name, hp, rfl, hnone⟩ := directoryTarget_eq_ok_iff.1 h
  exact accepts_of_parentTarget hp (by simp [hnone])

end View

end FpgaFlow
