import FpgaFlow.Path

/-!
# Faults of a build

What stops a build for good: no installed toolchain, a device that the synthesizer does not know, a
mode that does not exist, or a tool that did not end with exit code zero.
-/

namespace FpgaFlow

/-- The steps of a build that are left to another program. -/
inductive Tool where
  | yosys
  | specialized
  | script
  deriving DecidableEq, Repr

namespace Tool

def name : Tool → String
  | yosys => "yosys synthesis"
  | specialized => "specialized synthesis"
  | script => "toolchain script"

end Tool

/-- What stops a build for good. A tool that was ended by a signal has no exit code. -/
inductive Fault where
  | toolchainNotFound (root : Path)
  | unknownArchitecture (device code : String)
  | invalidMode (text : String)
  | toolFailed (tool : Tool) (code : Option Int)
  deriving DecidableEq, Repr

namespace Fault

/-- How a program ended, in words. -/
def describeExit : Option Int → String
  | some code => "exit code " ++ toString code
  | none => "no exit code (terminated by signal)"

/-- The words for a fault. -/
def message : Fault → String
  | toolchainNotFound root => "no ISE installation found under `" ++ root.text ++ "`"
  | unknownArchitecture device code =>
    "device `" ++ device ++ "` has no known yosys architecture (code `" ++ code ++ "`)"
  | invalidMode text =>
    "invalid synthesis mode `" ++ text ++ "`, valid values: xst, yosys, edif, mist"
  | toolFailed tool code => tool.name ++ " failed with " ++ describeExit code

/-- The exit code of the tool that failed, if it has one. -/
def exitCode? : Fault → Option Int
  | toolFailed _ code => code
  | _ => none

end Fault

end FpgaFlow
