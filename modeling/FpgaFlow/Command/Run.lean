import FpgaFlow.Command.Plan
import FpgaFlow.Inspection
import FpgaFlow.Json

/-!
# The command line

A command ends with an exit code and with what it prints on the two outputs. A failure is printed
with its chain of contexts, and the exit code of a tool that failed becomes that of the command.
-/

namespace FpgaFlow.Command

/-- How a command ended. -/
structure Answer where
  code : Int
  output : String
  errors : String
  deriving DecidableEq, Repr

/-- The exit code for a failure: that of the tool that failed, unless it has none or zero. -/
def exitCode (f : Failure) : Int :=
  match f.fault?.bind Fault.exitCode? with
  | some 0 | none => 1
  | some code => code

theorem exitCode_ne_zero (f : Failure) : exitCode f ≠ 0 := by
  rw [exitCode]
  split
  next => decide
  next => decide
  next code hnot _ =>
    rintro rfl
    exact hnot rfl

theorem exitCode_eq_getD {f : Failure} {tool : Tool} {code : Option Int}
    (hf : f.fault? = some (.toolFailed tool code)) (hcode : code ≠ some 0) :
    exitCode f = code.getD 1 := by
  have hbind : f.fault?.bind Fault.exitCode? = code := by
    rw [hf]
    rfl
  rw [exitCode, hbind]
  split
  next => exact absurd rfl hcode
  next => rfl
  next => rfl

/-- The answer of a command that failed. -/
def failed (f : Failure) : Answer where
  code := exitCode f
  output := ""
  errors := "error: " ++ f.message ++ "\n"

/-- The report of a build in words. -/
def describeBuild (workingDirectory : Path) (name : String) (r : Build.Report) : String :=
  String.join (r.files.map fun file =>
    "   Generated " ++ ((r.directory.child file).relativeTo workingDirectory).text ++ "\n") ++
  "    Finished `" ++ name ++ "`" ++
  (match r.bitstream with
    | some bitstream => " -> " ++ bitstream.text
    | none => " (" ++ r.mode.name ++ " mode, toolchain not run)") ++ "\n"

/-- The answer of a build that came to its end. -/
def finished (format : MessageFormat) (workingDirectory : Path) (name : String)
    (r : Build.Report) : Answer :=
  match format with
  | .human => ⟨0, "", describeBuild workingDirectory name r⟩
  | .json => ⟨0, Json.render r.encode ++ "\n", ""⟩

/-- What the command line builds a design with. -/
def equipment (tools : Tools) (design : PrecompiledDesign) : Build.Equipment where
  tools := tools
  lowering := .xilinx
  synthesizer := design.synthesizer?

/-- Runs a build command. -/
def runBuild (tools : Tools) (a : BuildArguments) (h : Host) : Answer × Host :=
  match plan a h with
  | .error f => (failed f, h)
  | .ok p =>
    match Build.run p.design.generator p.options (equipment tools p.design) h with
    | (.error f, progress) => (failed f, progress.host)
    | (.ok r, progress) => (finished a.format h.workingDirectory p.options.name r, progress.host)

/-- Runs an inspection command. -/
def runToolchain (a : ToolchainArguments) (verbose : Bool) (h : Host) : Answer :=
  match located h with
  | .error f => failed f
  | .ok workingDirectory =>
    let root := match h.findManifest workingDirectory with
      | .ok manifest => projectRoot h manifest
      | .error _ => workingDirectory
    let config := configFor h root
    let report := h.inspect (installRoot a.installRoot config workingDirectory root)
    match a.format with
    | .human => ⟨0, report.render verbose, ""⟩
    | .json => ⟨0, Json.render report.encode ++ "\n", ""⟩

/-- How the commands are used. -/
def usage : String :=
  "Usage: isebuild [-v] build [--manifest-path PATH] [-m MODE] [--build-dir PATH]\n" ++
  "                [--build-name NAME] [--ise-path PATH] [--no-source] [--no-run]\n" ++
  "                [--message-format human|json]\n" ++
  "       isebuild [-v] toolchain [--ise-path PATH] [--message-format human|json]\n" ++
  "       isebuild completions bash|elvish|fish|powershell|zsh\n"

/-- The version of the command line. -/
def versionLine : String := "isebuild 0.1.0\n"

/-- The answer when there is no command to run. -/
def stopped : Stop → Answer
  | .help => ⟨0, usage, ""⟩
  | .version => ⟨0, versionLine, ""⟩
  | .misuse => ⟨2, "", usage⟩

/-- The completions for a shell: the names of the commands, one per line. -/
def completions (_shell : String) : Answer :=
  ⟨0, String.join (names.map fun name => name ++ "\n"), ""⟩

/-- Runs the command line on a host. -/
def run (tools : Tools) (arguments : List String) (h : Host) : Answer × Host :=
  match parse (h.environment.lookup "XILINX_ISE_PATH") arguments with
  | .error s => (stopped s, h)
  | .ok (.build a) => runBuild tools a h
  | .ok (.toolchain a verbose) => (runToolchain a verbose h, h)
  | .ok (.completions shell) => (completions shell, h)

end FpgaFlow.Command
