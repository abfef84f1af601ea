import FpgaFlow.Installation
import FpgaFlow.Programs
import FpgaFlow.Build.Synthesis

/-!
# Inspecting the toolchain

An inspection checks what a build needs: an installed version with its settings script, the shell
that runs the control script, and, for information, the open synthesizer and the vendor's tools
themselves. A check that is not required does not keep a build from running.

`Inspection.render` writes a report in a short form, with the messages of the checks that failed,
and in a long one, with every message and every path.
-/

namespace FpgaFlow

/-- The result of a check. -/
structure Check where
  name : String
  passed : Bool
  message : String
  path : Option Path
  /-- Whether a build cannot run when the check fails. -/
  required : Bool
  deriving DecidableEq, Repr

/-- What was found out about the toolchain. -/
structure Inspection where
  installRoot : Path
  version : Option String
  bits : Nat
  checks : List Check
  deriving DecidableEq, Repr

namespace Check

def encode (c : Check) : Datum :=
  .map [("name", .text c.name), ("passed", .bool c.passed), ("message", .text c.message),
    ("path", Datum.ofOption (fun p => .text p.text) c.path), ("required", .bool c.required)]

/-- The line that says whether a check passed. -/
def statusLine (c : Check) : String :=
  "  " ++ (if c.passed then "[OK]" else "[!!]") ++ " " ++ c.name ++
    if c.required then "" else " (optional)"

def messageLine (c : Check) : String :=
  "      " ++ c.message

def pathLines (c : Check) : List String :=
  (c.path.map fun p => "      Path: " ++ p.text).toList

/-- The lines of a check. -/
def lines (verbose : Bool) (c : Check) : List String :=
  c.statusLine ::
    ((if verbose || !c.passed then [c.messageLine] else []) ++
      if verbose then c.pathLines else [])

end Check

namespace Inspection

/-- Whether a build can run. -/
def allRequiredPassed (i : Inspection) : Bool :=
  (i.checks.filter Check.required).all Check.passed

def encode (i : Inspection) : Datum :=
  .map [("ise_path", .text i.installRoot.text), ("version", Datum.ofOption .text i.version),
    ("host_bits", .int i.bits), ("checks", .list (i.checks.map Check.encode))]

/-- The lines before those of the checks. -/
def headLines (i : Inspection) : List String :=
  ["ISE toolchain", "=============", "", "Install root: " ++ i.installRoot.text,
    "Version: " ++ i.version.getD "none", "Host: " ++ toString i.bits ++ "-bit", "", "Checks:"]

/-- The lines after those of the checks. -/
def tailLines (i : Inspection) : List String :=
  if i.allRequiredPassed then []
  else ["", "Warning: builds that run the toolchain will fail."]

/-- The lines of a report. -/
def lines (verbose : Bool) (i : Inspection) : List String :=
  i.headLines ++ i.checks.flatMap (Check.lines verbose) ++ i.tailLines

/-- The text of a report. -/
def render (verbose : Bool) (i : Inspection) : String :=
  String.join ((i.lines verbose).map fun line => line ++ "\n")

/-- The vendor's tools that the control script runs. -/
def tools : List String :=
  ["xst", "ngdbuild", "map", "par", "bitgen"]

/-- The check whether a program is there. -/
def programCheck (name found missing : String) (required : Bool) (path : Option Path) : Check where
  name := name
  passed := path.isSome
  message := if path.isSome then found else missing
  path := path
  required := required

/-- The checks of the installation below a directory, and its version. -/
def installationChecks (v : View) (root : Path) : Option String × List Check :=
  match v.newestVersion root with
  | .ok version =>
    let settings := v.settingsScript root version hostBits
    let there := v.isFile settings
    (some version.text,
      [⟨"ISE installation", true, "version " ++ version.text, some (root.child version.text), true⟩,
        ⟨"settings script", there, if there then "found" else "missing", some settings, true⟩])
  | .error fault => (none, [⟨"ISE installation", false, fault.message, none, true⟩])

end Inspection

namespace Host

/-- Inspects the installation below a directory and the programs of a host. -/
def inspect (h : Host) (root : Path) : Inspection :=
  let (version, installation) := Inspection.installationChecks h.toView root
  { installRoot := root
    version := version
    bits := hostBits
    checks := installation ++
      [Inspection.programCheck "bash" "found" "not found in PATH" true (h.findProgram? ⟨"bash"⟩),
        Inspection.programCheck "yosys" "found" "not found (set YOSYS or add it to PATH)" false
          (h.findProgram? (Action.yosysProgram h))] ++
      Inspection.tools.map fun tool =>
        Inspection.programCheck tool "on PATH" "not on PATH, provided by the settings script" false
          (h.findProgram? ⟨tool⟩) }

end Host

end FpgaFlow
