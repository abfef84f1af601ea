import FpgaFlow.Command.Run

/-!
# The program

The command line works on a tree of files that is read beforehand: standard input lists what a
command may look at, one path per line, with a slash after a directory and a star after a file that
may be executed. What the command did to that tree is then done on disk.

No program is started from here; a build that comes to its tools fails there, with everything that
it generated in place.
-/

namespace FpgaFlow.Program

/-- The variables of the environment that commands look at. -/
def variableNames : List String :=
  ["HOME", "PATH", "YOSYS", "XILINX_ISE_PATH"]

/-- What a line of the list says about a path. -/
inductive Listed where
  | directory
  | file (executable : Bool)

/-- The path on a line of the list, and what the line says about it. -/
def ofLine (line : String) : Path × Listed :=
  match line.toList.reverse with
  | '/' :: rest => (⟨String.ofList rest.reverse⟩, .directory)
  | '*' :: rest => (⟨String.ofList rest.reverse⟩, .file true)
  | _ => (⟨line⟩, .file false)

/-- The location of a path, read below a directory. -/
def locationOf (directory : Location) (p : Path) : Location :=
  p.steps.foldl View.step (if p.isAbsolute then [] else directory)

/-- No program is started. -/
def tools : Tools := fun call tree =>
  (tree, .error ⟨[.executing call.program], .io .permissionDenied⟩)

/-- What is in a file. -/
def readContent (p : Path) : IO Content := do
  let bytes ← IO.FS.readBinFile p.text
  match String.fromUTF8? bytes with
  | some text => return .text text
  | none => return .bytes bytes.toList

/-- Reads the list on standard input and what it names. -/
def readTree (directory : Location) : IO FileTree := do
  let input ← IO.getStdin
  let mut tree := FileTree.empty.plant directory .directory
  repeat
    let line ← input.getLine
    if line.isEmpty then break
    let (p, listed) := ofLine (String.ofList (line.toList.filter (· ≠ '\n')))
    match listed with
    | .directory => tree := tree.plant (locationOf directory p) .directory
    | .file executable =>
      tree := tree.plant (locationOf directory p) (.file (← readContent p) executable)
  return tree

/-- The variables that are set. -/
def readVariables : IO (List (String × String)) := do
  let mut environment := []
  for name in variableNames do
    if let some value ← IO.getEnv name then environment := environment ++ [(name, value)]
  return environment

/-- Does on disk what was done to the tree. -/
def perform : Event → IO Unit
  | .madeDirectory l => IO.FS.createDirAll (Path.ofLocation l).text
  | .wroteFile l text => IO.FS.writeFile (Path.ofLocation l).text text
  | .ranTool .. => pure ()

/-- Runs the command line. -/
def run (arguments : List String) : IO UInt32 := do
  let directory := locationOf [] ⟨(← IO.currentDir).toString⟩
  let host := Host.start ⟨← readTree directory, directory⟩ (← readVariables)
  let (answer, after) := Command.run tools arguments host
  after.journal.forM perform
  (← IO.getStdout).putStr answer.output
  (← IO.getStderr).putStr answer.errors
  return UInt32.ofNat answer.code.toNat

end FpgaFlow.Program

/-- The command line of the program. -/
def main (arguments : List String) : IO UInt32 :=
  FpgaFlow.Program.run arguments
