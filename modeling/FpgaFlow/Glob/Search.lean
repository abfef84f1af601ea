import FpgaFlow.Failure

/-!
# Finding files by pattern

A pattern is searched for component by component. A component without wild cards leads on to what it
names, one with wild cards to everything in the directory that it stands for, and `**` to everything
below the directory at any depth (`View.search`).

`View.findFiles` gives the files that the patterns of a list stand for, in the order of paths and
each one once; of several spellings of a path it keeps the one found first.
-/

namespace FpgaFlow

namespace Glob

/-- The components of a pattern. -/
structure PathPattern where
  /-- Where the search starts. -/
  scope : Path
  components : List Pattern
  /-- Whether only directories are meant. -/
  directoriesOnly : Bool

/-- What stands between the slashes of a text; a slash at its end adds nothing. -/
def componentTexts (s : List Char) : List (List Char) :=
  let pieces := Text.splitOn '/' s
  if pieces.getLast? = some [] then pieces.dropLast else pieces

/-- The components of a pattern, where `**` after `**` adds nothing. -/
def collapse : List Pattern → List Pattern
  | [] => []
  | [p] => [p]
  | p :: q :: rest =>
    if p.isRecursive && q.isRecursive then collapse (q :: rest) else p :: collapse (q :: rest)

/-- Reads a pattern for paths. It has to be a pattern as a whole and in each component. -/
def PathPattern.parse (text : String) : Except PatternError PathPattern := do
  let cs := text.toList
  let _ ← Pattern.parse cs
  let (scope, rest) : Path × List Char := match cs with
    | '/' :: rest => (⟨"/"⟩, rest)
    | _ => (⟨"."⟩, cs)
  let components ← (componentTexts rest).mapM Pattern.parse
  return {
    scope := scope
    components := collapse (if rest.isEmpty then [⟨[]⟩] else components)
    directoriesOnly := cs.getLast? == some '/' }

end Glob

namespace View

open Glob

/-- The path of a name in a directory. The working directory itself is not written. -/
def below (dir : Path) (name : String) : Path :=
  if dir.same ⟨"."⟩ then ⟨name⟩ else dir.child name

/-- The ways to everything below a directory. -/
def descents (v : View) (dir : Path) : List Location :=
  match v.resolve dir with
  | .ok l => (v.tree.contents l).map Prod.fst
  | .error _ => []

/-- The names in a directory; nothing but a directory has any. -/
def namesIn (v : View) (dir : Path) : List String :=
  match v.list dir with
  | .ok names => names
  | .error _ => []

/-- The special names that a component may stand for, and where they lead. -/
def specials (p : Pattern) : List String :=
  if p.startsWithDot then ["..", "."].filter p.accepts else []

/-- What the components of a pattern lead to from a directory. -/
def search (v : View) : List Pattern → Path → List Path
  | [], dir => [dir]
  | p :: ps, dir =>
    match p.literal? with
    | some name =>
      let next := below dir name
      let there := if name = "." ∨ name = ".." then v.isDirectory dir else v.exists_ next
      if there then search v ps next else []
    | none =>
      if !v.isDirectory dir then []
      else if p.isRecursive then
        match ps with
        | [] => ((v.descents dir).map fun l => l.foldl below dir).filter v.isDirectory
        | q :: qs => (v.descents dir).flatMap fun l =>
          if q.accepts (l.getLast?.getD "") then search v qs (l.foldl below dir) else []
      else
        (specials p).flatMap (fun name => search v ps (dir.child name)) ++
          ((v.namesIn dir).filter p.accepts).flatMap fun name => search v ps (below dir name)

/-- Everything that a pattern stands for. -/
def found (v : View) (p : PathPattern) : List Path :=
  (v.search p.components p.scope).filter fun path => !p.directoriesOnly || v.isDirectory path

/-- The files that a pattern stands for, read below a directory. -/
def filesOf (v : View) (base : Path) (pattern : String) : Except Failure (List Path) :=
  match PathPattern.parse (base.child pattern).text with
  | .ok p => .ok ((v.found p).filter v.isFile)
  | .error e => .error ⟨[.globbing pattern], .pattern e⟩

/-- Paths without those that were there before in another spelling. -/
def withoutRepeats : List Path → List Path
  | [] => []
  | p :: ps => p :: (withoutRepeats ps).filter fun q => !p.same q

/-- Paths in their order. -/
def sortPaths (ps : List Path) : List Path :=
  ps.mergeSort fun p q => p.order q != .gt

/-- The files that patterns stand for, read below a directory. -/
def findFiles (v : View) (base : Path) (patterns : List String) : Except Failure (List Path) := do
  let found ← patterns.mapM (v.filesOf base)
  return withoutRepeats (sortPaths found.flatten)

end View

end FpgaFlow
