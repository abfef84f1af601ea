import FpgaFlow.Host

/-!
# Programs of a host

A program is named by a path or by a bare name; a bare name is searched for in the directories of
the variable `PATH`. Only files that may be executed are programs.

`Host.findProgram?` says which file a name stands for, without running it. `Tools.installed` runs
the file that a name stands for.
-/

namespace FpgaFlow

/-- What the program in the file at a location does. -/
abbrev Programs := Location → Invocation → FileTree → FileTree × Option Int

/-- The directories that are searched for programs. -/
def searchDirectories (environment : List (String × String)) : List Path :=
  match environment.lookup "PATH" with
  | some value => (Text.splitOn ':' value.toList).map fun d => ⟨String.ofList d⟩
  | none => []

namespace Host

/-- The path of components below another path. -/
def belowPath (p : Path) (cs : List Path.Component) : Path :=
  cs.foldl (fun p c => p.child c.text) p

/-- A path from the working directory. -/
def fromWorkingDirectory (h : Host) (p : Path) : Path :=
  if p.isAbsolute then p
  else belowPath h.workingDirectory (p.components.dropWhile (· == .here))

/-- A directory that is searched, where `~` at its beginning stands for the user's own directory. -/
def expandHome (h : Host) (d : Path) : Path :=
  match d.components with
  | .name "~" :: rest => belowPath ⟨(h.valueOf? "HOME").getD ""⟩ rest
  | _ => d

/-- The path of the program that a name stands for. A name of several components is a path from the
working directory. -/
def findProgram? (h : Host) (name : Path) : Option Path :=
  let candidates :=
    if 1 < name.components.length then [name]
    else (searchDirectories h.environment).map fun d => (h.expandHome d).join name
  (candidates.map h.fromWorkingDirectory).find? h.isExecutable

end Host

namespace View

/-- The location of the program at the end of a path. -/
def programAt (v : View) (p : Path) : Except IoError Location := do
  let l ← v.resolve p
  match v.tree.lookup l with
  | some (.file _ true) => .ok l
  | some _ => .error .permissionDenied
  | none => .error .notFound

/-- The first program of a list of paths. Files that may not be executed are passed over, but not
forgotten when nothing else is found. -/
def firstProgram (v : View) : List Path → Except IoError Location
  | [] => .error .notFound
  | p :: ps => match v.programAt p with
    | .ok l => .ok l
    | .error .permissionDenied => match v.firstProgram ps with
      | .ok l => .ok l
      | .error _ => .error .permissionDenied
    | .error _ => v.firstProgram ps

end View

namespace Tools

/-- The location of the program that a call runs. -/
def locate (environment : List (String × String)) (call : Invocation) (tree : FileTree) :
    Except IoError Location :=
  let view : View := ⟨tree, call.directory⟩
  if call.program.text = "" then .error .notFound
  else if call.program.text.toList.contains '/' then view.programAt call.program
  else view.firstProgram ((searchDirectories environment).map fun d => d.join call.program)

/-- The tools that are installed on a host: each call runs the file that its program names. -/
def installed (environment : List (String × String)) (programs : Programs) : Tools :=
  fun call tree =>
    match locate environment call tree with
    | .ok l =>
      let (left, code) := programs l call tree
      (left, .ok code)
    | .error e => (tree, .error ⟨[.executing call.program], .io e⟩)

end Tools

end FpgaFlow
