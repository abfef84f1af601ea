import FpgaFlow.Failure

/-!
# The host of a build

A host is a file tree seen from the working directory, with the variables of the environment and a
journal of everything that was done to it: directories that were made, files that were written and
tools that were run.

Actions look at a host and change it, and what they did before they fail stays done. A tool is
described by what it makes of the tree and by how it ends (`Tools`); it runs in the working
directory.
-/

namespace FpgaFlow

/-- A call of a program with its arguments, from a directory. -/
structure Invocation where
  program : Path
  arguments : List String
  directory : Location
  deriving DecidableEq, Repr

/-- The program and its arguments, with blanks between them. -/
def Invocation.command (i : Invocation) : String :=
  String.intercalate " " (i.program.text :: i.arguments)

/-- How a call ended: with an exit code, with none because of a signal, or not at all. -/
abbrev Outcome := Except Failure (Option Int)

/-- What tools do: the tree that a call leaves behind, and how it ends. -/
abbrev Tools := Invocation → FileTree → FileTree × Outcome

/-- Something that was done to a host. -/
inductive Event where
  | madeDirectory (l : Location)
  | wroteFile (l : Location) (text : String)
  /-- A tool was run, with the files that were in its directory when it started. -/
  | ranTool (call : Invocation) (present : List String) (outcome : Outcome)

/-- A file tree seen from the working directory, with the environment and the journal. -/
structure Host extends View where
  environment : List (String × String)
  journal : List Event

namespace Host

/-- A host on which nothing has been done yet. -/
def start (view : View) (environment : List (String × String)) : Host where
  toView := view
  environment := environment
  journal := []

/-- The value of a variable; an empty value counts as none. -/
def valueOf? (h : Host) (name : String) : Option String :=
  match h.environment.lookup name with
  | some "" => none
  | value => value

/-- The working directory as a path. -/
def workingDirectory (h : Host) : Path :=
  Path.ofLocation h.directory

/-- The working directory as a path, if it is still there. -/
def currentDirectory (h : Host) : Except IoError Path :=
  if h.tree.lookup h.directory = some .directory then .ok h.workingDirectory
  else .error .notFound

theorem currentDirectory_eq_ok_iff {h : Host} {p : Path} : h.currentDirectory = .ok p ↔
    h.tree.lookup h.directory = some .directory ∧ p = h.workingDirectory := by
  rw [currentDirectory]
  split
  next hthere => simp [hthere, eq_comm]
  next hnot => simp [hnot]

/-- The host after something was done that left the tree `tree`. -/
def record (h : Host) (tree : FileTree) (event : Event) : Host :=
  { h with tree := tree, journal := h.journal ++ [event] }

/-- The host with a new directory at a location. -/
def makeDirectoryAt (h : Host) (l : Location) : Host :=
  h.record (h.tree.put l .directory) (.madeDirectory l)

/-- The host with a text in the file at a location. A file that was there keeps its permission to
be executed. -/
def writeFileAt (h : Host) (l : Location) (text : String) : Host :=
  let executable := match h.tree.lookup l with
    | some (.file _ executable) => executable
    | _ => false
  h.record (h.tree.put l (.file (.text text) executable)) (.wroteFile l text)

/-- Makes one directory. -/
def makeDirectory (h : Host) (p : Path) : Except IoError Host :=
  (h.directoryTarget p).map h.makeDirectoryAt

/-- Makes a directory, given as a path with its parents, and those of its parents that are
missing. -/
def makeDirectories (h : Host) : List Path → Host × Except IoError Unit
  | [] => (h, .ok ())
  | p :: parents =>
    if p.text = "" then (h, .ok ())
    else match h.makeDirectory p with
      | .ok made => (made, .ok ())
      | .error .notFound => match h.makeDirectories parents with
        | (below, .ok ()) => match below.makeDirectory p with
          | .ok made => (made, .ok ())
          | .error e => (below, if below.isDirectory p then .ok () else .error e)
        | (below, .error e) => (below, .error e)
      | .error e => (h, if h.isDirectory p then .ok () else .error e)

/-- Writes a text to a file. -/
def writeFile (h : Host) (p : Path) (text : String) : Except IoError Host :=
  (h.fileTarget p).map fun l => h.writeFileAt l text

/-- Makes the directory at the end of a path the working directory. -/
def enter (h : Host) (p : Path) : Except IoError Host :=
  (h.toView.enter p).map fun view => { h with toView := view }

/-- Makes a location the working directory again, if it is still there. -/
def returnTo (h : Host) (l : Location) : Host :=
  if h.tree.lookup l = some .directory then { h with directory := l } else h

/-- Runs a program in the working directory. -/
def runTool (h : Host) (tools : Tools) (program : Path) (arguments : List String) :
    Host × Outcome :=
  let call : Invocation := ⟨program, arguments, h.directory⟩
  let (tree, outcome) := tools call h.tree
  (h.record tree (.ranTool call (h.tree.fileNames h.directory) outcome), outcome)

end Host

/-- Something done on a host that may fail. -/
abbrev Action := ExceptT Failure (StateM Host)

namespace Action

/-- What a look at the host gives. -/
def look {α : Type} (f : Host → Except Failure α) : Action α :=
  ExceptT.mk fun h => (f h, h)

/-- A change of the host that may fail. -/
def change {α : Type} (f : Host → Host × Except Failure α) : Action α :=
  ExceptT.mk fun h => ((f h).2, (f h).1)

/-- What went wrong with a file or directory, in a context. -/
def inContext {α : Type} (context : Context) (r : Except IoError α) : Except Failure α :=
  r.mapError fun e => ⟨[context], .io e⟩

theorem inContext_eq_ok_iff {α : Type} {context : Context} {r : Except IoError α} {a : α} :
    inContext context r = .ok a ↔ r = .ok a := by
  cases r with
  | ok b =>
    have hok : inContext context (.ok b : Except IoError α) = .ok b := rfl
    rw [hok, Except.ok.injEq, Except.ok.injEq]
  | error e => constructor <;> rintro ⟨⟩

/-- Makes sure that there is a directory at the end of a path. -/
def ensureDirectory (p : Path) : Action Unit :=
  change fun h =>
    if h.exists_ p then (h, .ok ())
    else
      let (made, r) := h.makeDirectories p.ancestors
      (made, inContext (.creating p) r)

/-- Writes a text to a file, in a directory that is there. -/
def writeHere (p : Path) (text : String) : Action Unit :=
  change fun h => match h.writeFile p text with
    | .ok written => (written, .ok ())
    | .error e => (h, .error ⟨[.writing p], .io e⟩)

/-- Writes a text to a file and makes the directories above it. -/
def writeText (p : Path) (text : String) : Action Unit := do
  match p.parent? with
  | some parent => if parent.text = "" then pure () else ensureDirectory parent
  | none => pure ()
  writeHere p text

/-- Makes the directory at the end of a path the working directory. -/
def enter (p : Path) : Action Unit :=
  change fun h => match h.enter p with
    | .ok entered => (entered, .ok ())
    | .error e => (h, .error ⟨[.entering p], .io e⟩)

/-- Runs a program in the working directory. -/
def runTool (tools : Tools) (program : Path) (arguments : List String) : Action (Option Int) :=
  change fun h => h.runTool tools program arguments

/-- Runs a program that has to end with exit code zero. -/
def runSuccessfully (tools : Tools) (tool : Tool) (program : Path) (arguments : List String) :
    Action Unit := do
  let code ← runTool tools program arguments
  if code = some 0 then pure ()
  else throw (Failure.of (.fault (.toolFailed tool code)))

end Action

namespace View

/-- The text of the file at the end of a path, for an action. -/
def readText (v : View) (p : Path) : Except Failure String :=
  Action.inContext (.reading p) (v.read p)

end View

end FpgaFlow
