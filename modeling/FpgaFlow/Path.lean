import FpgaFlow.Text

/-!
# Paths

A path is kept as it was written: nothing is normalised, so that messages and generated files show
the spelling that was given. What a path means is its list of components (`components`): the root,
a leading `.`, `..` and names, where `//`, a trailing `/` and every other `.` count for nothing.
Two spellings with the same components are the same path, and paths are ordered component by
component (`Path.order`).

`join` places one path below another, `parent?` drops the last component, `relativeTo` leads from
one path to another.
-/

namespace FpgaFlow

/-- A path as it was written. -/
structure Path where
  text : String
  deriving DecidableEq, Repr, Inhabited

namespace Path

/-- One component of a path. -/
inductive Component where
  | root
  | here
  | up
  | name (s : String)
  deriving DecidableEq, Repr

namespace Component

/-- The place of a kind of component in the order. -/
def rank : Component → Nat
  | root => 0
  | here => 1
  | up => 2
  | name _ => 3

/-- The root comes first, then `.`, then `..`, then the names in the order of their characters. -/
def order : Component → Component → Ordering
  | name s, name t => compare s t
  | a, b => compare a.rank b.rank

/-- A component as it is written. -/
def text : Component → String
  | root => "/"
  | here => "."
  | up => ".."
  | name s => s

end Component

/-- What stands between the slashes of a path. -/
def pieces (p : Path) : List String :=
  (Text.splitOn '/' p.text.toList).map String.ofList

def isAbsolute (p : Path) : Bool :=
  p.text.toList.head? == some '/'

/-- The component that a piece stands for, if it stands for one. -/
def componentOf? : String → Option Component
  | "" => none
  | "." => none
  | ".." => some .up
  | s => some (.name s)

/-- The components of a path. Only a leading `.` counts. -/
def components (p : Path) : List Component :=
  match p.pieces with
  | [] => []
  | first :: rest =>
    let front : List Component :=
      if first = "" then (if rest.isEmpty then [] else [.root])
      else if first = "." then [.here]
      else (componentOf? first).toList
    front ++ rest.filterMap componentOf?

/-- Comparison of two lists of components, from the left. -/
def orderComponents : List Component → List Component → Ordering
  | [], [] => .eq
  | [], _ :: _ => .lt
  | _ :: _, [] => .gt
  | a :: as, b :: bs => (a.order b).then (orderComponents as bs)

/-- The order of paths, component by component. -/
def order (p q : Path) : Ordering :=
  orderComponents p.components q.components

/-- Two spellings of one path. -/
def same (p q : Path) : Bool :=
  p.components == q.components

/-- The path `q`, read below `p`. An absolute `q` stays as it is; below the empty path it stays as
well, and otherwise exactly one slash is put between the two. -/
def join (p q : Path) : Path :=
  if q.isAbsolute then q
  else if p.text = "" then q
  else if p.text.toList.getLast? = some '/' then ⟨p.text ++ q.text⟩
  else ⟨p.text ++ "/" ++ q.text⟩

/-- The name `name` below `p`. -/
def child (p : Path) (name : String) : Path :=
  p.join ⟨name⟩

/-- Pieces at the end that stand for no component. -/
def dropBlankEnd (ps : List String) : List String :=
  (ps.reverse.dropWhile fun s => s = "" || s = ".").reverse

/-- Pieces without the last component; `none` when there is no component. -/
def dropLastPiece? (ps : List String) : Option (List String) :=
  match dropBlankEnd ps with
  | [] => none
  | qs => some (dropBlankEnd qs.dropLast)

/-- The path without its last component, in the spelling it was written in. The root and the empty
path have no parent. -/
def parent? (p : Path) : Option Path :=
  match p.pieces with
  | [] => none
  | "" :: rest => (dropLastPiece? rest).map fun ps => ⟨"/" ++ String.intercalate "/" ps⟩
  | first :: rest =>
    match dropLastPiece? rest with
    | some ps => some ⟨String.intercalate "/" (first :: ps)⟩
    | none => some ⟨""⟩

/-- The path and its parents, as long as there is one. -/
def ancestorsFrom : Nat → Path → List Path
  | 0, p => [p]
  | n + 1, p => match p.parent? with
    | some q => p :: ancestorsFrom n q
    | none => [p]

/-- The path, its parent, the parent of that and so on. A path has no more parents than pieces. -/
def ancestors (p : Path) : List Path :=
  ancestorsFrom p.pieces.length p

/-- The last component, if it is a name. -/
def fileName? (p : Path) : Option String :=
  match p.components.getLast? with
  | some (.name s) => some s
  | _ => none

/-- What follows the last point of the file name; a leading point starts no extension. -/
def extension? (p : Path) : Option String := do
  let name ← p.fileName?
  match (Text.splitOn '.' name.toList).reverse with
  | [] | [_] => none
  | [_, []] => none
  | last :: _ => some (String.ofList last)

/-- The path itself if it is absolute, and otherwise the path below `base`. -/
def absolutize (base p : Path) : Path :=
  if p.isAbsolute then p else base.join p

/-- The components that lead from the directory of components `base` to `path`; `moved` says
whether one has been found already. `none` when a `..` would have to be undone. -/
def stepsBetween : List Component → List Component → Bool → Option (List Component)
  | [], rest, _ => some rest
  | _ :: bs, [], moved => (stepsBetween bs [] moved).map (.up :: ·)
  | b :: bs, a :: as, moved =>
    if a = b ∧ moved = false then stepsBetween bs as false
    else match b with
      | .here => (stepsBetween bs as true).map (a :: ·)
      | .up => none
      | _ => some (.up :: bs.map (fun _ => .up) ++ a :: as)

/-- The path that components write. -/
def ofComponents (cs : List Component) : Path :=
  cs.foldl (fun p c => p.join ⟨c.text⟩) ⟨""⟩

/-- The way from the directory `base` to `p`. Where there is none, `p` as it is written. -/
def relativeTo (p base : Path) : Path :=
  if p.isAbsolute = base.isAbsolute then
    match stepsBetween base.components p.components false with
    | some cs => ofComponents cs
    | none => p
  else p

theorem join_of_isAbsolute (p : Path) {q : Path} (h : q.isAbsolute = true) : p.join q = q := by
  simp [join, h]

theorem absolutize_of_isAbsolute (base : Path) {p : Path} (h : p.isAbsolute = true) :
    absolutize base p = p := by
  simp [absolutize, h]

end Path

end FpgaFlow
