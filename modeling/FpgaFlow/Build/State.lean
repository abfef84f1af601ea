/-!
# States of a build

A build that succeeds goes through its states in their order; one that fails ends in `failed`.
-/

namespace FpgaFlow

/-- Where a build is. -/
inductive BuildState where
  | changeDirectory
  | selectMode
  | generateDesign
  | generateProject
  | writeConstraints
  | runScript
  | done
  | failed
  deriving DecidableEq, Repr

namespace BuildState

/-- The name of a state in reports. -/
def name : BuildState → String
  | changeDirectory => "change_dir"
  | selectMode => "select_mode"
  | generateDesign => "generate_design"
  | generateProject => "generate_project"
  | writeConstraints => "write_constraints"
  | runScript => "write_and_run_script"
  | done => "done"
  | failed => "failed"

/-- What a build does in a state. -/
def activity : BuildState → String
  | changeDirectory => "entering the build directory"
  | selectMode => "selecting the synthesis mode"
  | generateDesign => "generating the design"
  | generateProject => "generating the synthesis project"
  | writeConstraints => "writing constraints"
  | runScript => "running the toolchain"
  | done => "done"
  | failed => "failed"

end BuildState

end FpgaFlow
