import FpgaFlow.Schema

/-!
# Source files

A source file has a path and a language. The language's name is at once the keyword of a project
file and the end of a reading command. The order of a list of source files matters to the tools and
is never changed.
-/

namespace FpgaFlow

/-- A hardware description language. -/
inductive Language where
  | verilog
  | vhdl
  deriving DecidableEq, Repr

namespace Language

def name : Language → String
  | verilog => "verilog"
  | vhdl => "vhdl"

/-- The language of the files with an extension; the case of ASCII letters does not matter. -/
def ofExtension? (extension : String) : Option Language :=
  match Text.lowerAscii extension with
  | "v" | "vh" | "sv" => some verilog
  | "vhd" | "vhdl" => some vhdl
  | _ => none

def encode (l : Language) : Datum :=
  .text l.name

def decode : Schema.Reader Language :=
  Schema.oneOf [("verilog", verilog), ("vhdl", vhdl)]

end Language

/-- A source file. -/
structure SourceFile where
  path : Path
  language : Language
  deriving DecidableEq, Repr

namespace SourceFile

/-- The source file at an absolute path: a relative one is read below `base`. -/
def absolutize (base : Path) (s : SourceFile) : SourceFile :=
  { s with path := Path.absolutize base s.path }

def encode (s : SourceFile) : Datum :=
  .map [("path", .text s.path.text), ("language", s.language.encode)]

def decode : Schema.Reader SourceFile := fun d => do
  let m ← Schema.members .refused "struct SourceFile" ["path", "language"] d
  m.check [("path", Schema.fits Schema.path), ("language", Schema.fits Language.decode)]
  return {
    path := ← m.required "path" Schema.path
    language := ← m.required "language" Language.decode }

end SourceFile

end FpgaFlow
