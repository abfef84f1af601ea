import FpgaFlow.Build.State
import FpgaFlow.Fault
import FpgaFlow.Glob.Pattern
import FpgaFlow.Schema
import FpgaFlow.Toml.Moment
import FpgaFlow.View

/-!
# Failures

A failure has a cause, and a chain of contexts that say what was being done, from the outermost one
to the innermost. Its text is the contexts followed by the cause.
-/

namespace FpgaFlow

/-- What was being done when something failed. -/
inductive Context where
  | reading (p : Path)
  | writing (p : Path)
  | creating (p : Path)
  | entering (p : Path)
  | parsingManifest (p : Path)
  | readingConfig (p : Path)
  | parsingConfig (p : Path)
  | globbing (pattern : String)
  | executing (program : Path)
  | locating
  | building (failedIn : BuildState) (states : List BuildState)
  deriving DecidableEq, Repr

/-- The words for a context. -/
def Context.message : Context → String
  | reading p => "failed to read file: " ++ p.text
  | writing p => "failed to write file: " ++ p.text
  | creating p => "failed to create directory: " ++ p.text
  | entering p => "failed to enter directory: " ++ p.text
  | parsingManifest p => "failed to parse manifest: " ++ p.text
  | readingConfig p => "failed to read config file: " ++ p.text
  | parsingConfig p => "failed to parse config file: " ++ p.text
  | globbing pattern => "invalid glob pattern: " ++ pattern
  | executing program => "failed to execute `" ++ program.text ++ "`"
  | locating => "failed to read the current working directory"
  | building failedIn _ => "build failed while " ++ failedIn.activity

/-- Why something failed. -/
inductive Cause where
  | io (e : IoError)
  | pattern (e : Glob.PatternError)
  /-- A document is not well formed. -/
  | notToml
  /-- A document is well formed but does not fit what it is read as. -/
  | mismatch (m : Schema.Mismatch)
  | fault (f : Fault)
  | noPins (signal : String)
  | noArtifact
  | noManifest (start : Path)
  | noVerilog
  | noEdif
  | noTopModule (p : Path)
  | noSynthesizer
  /-- A tool or a generator reported a failure of its own. -/
  | reported (text : String)
  deriving Repr

namespace Cause

/-- Why a document is refused that does not fit what it is read as. If one of its moments is not
one, the document is not well formed. -/
def ofMismatch (document : Datum) (m : Schema.Mismatch) : Cause :=
  if Toml.wellDated document then .mismatch m else .notToml

/-- The words for a cause. What is wrong with a document is not part of them. -/
def message : Cause → String
  | io e => e.message
  | pattern e => "Pattern syntax error near position " ++ toString e.position ++ ": " ++
      e.fault.message
  | notToml => "TOML parse error"
  | mismatch _ => "TOML parse error"
  | fault f => f.message
  | noPins signal => "signal `" ++ signal ++ "` has no pins"
  | noArtifact => "[design] needs at least one of `verilog` or `edif`"
  | noManifest start =>
    "could not find `Isebuild.toml` in `" ++ start.text ++ "` or any parent directory"
  | noVerilog => "the manifest has no `verilog` artifact"
  | noEdif => "the manifest has no `edif` artifact"
  | noTopModule p => "no complete `module top` in " ++ p.text
  | noSynthesizer =>
    "`mist` mode needs a specialized synthesizer\nhint: add a [mist] section to the manifest"
  | reported text => text

end Cause

/-- A failure: its cause, and what was being done, outermost first. -/
structure Failure where
  contexts : List Context
  cause : Cause
  deriving Repr

namespace Failure

/-- A failure with nothing around its cause. -/
def of (cause : Cause) : Failure := ⟨[], cause⟩

/-- A failure within a further context. -/
def within (context : Context) (f : Failure) : Failure :=
  { f with contexts := context :: f.contexts }

/-- The text of a failure whose cause is worded by `words`. -/
def describe (words : Cause → String) (f : Failure) : String :=
  String.intercalate ": " (f.contexts.map Context.message ++ [words f.cause])

/-- The text of a failure. -/
def message (f : Failure) : String :=
  f.describe Cause.message

/-- The fault that caused the failure, if it is one. -/
def fault? (f : Failure) : Option Fault :=
  match f.cause with
  | .fault fault => some fault
  | _ => none

/-- The state in which a build failed and the states it went through. -/
def building? (f : Failure) : Option (BuildState × List BuildState) :=
  f.contexts.findSome? fun
    | .building failedIn states => some (failedIn, states)
    | _ => none

end Failure

end FpgaFlow
