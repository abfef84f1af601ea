import FpgaFlow.Schema

/-!
# Options of the tools

One text of options per tool, handed over word for word, and the commands that the control script
ends with.
-/

namespace FpgaFlow

/-- The options of the tools. -/
structure ToolOptions where
  xst : String := "-ifmt MIXED\n-opt_mode SPEED\n-register_balancing yes"
  ngdbuild : String := ""
  map : String := "-ol high -w"
  par : String := "-ol high -w"
  bitgen : String := "-g LCK_cycle:6 -g Binary:Yes -w"
  commands : String := ""
  deriving DecidableEq, Repr, Inhabited

namespace ToolOptions

def encode (o : ToolOptions) : Datum :=
  .map [("xst", .text o.xst), ("ngdbuild", .text o.ngdbuild), ("map", .text o.map),
    ("par", .text o.par), ("bitgen", .text o.bitgen), ("commands", .text o.commands)]

def decode : Schema.Reader ToolOptions := fun d => do
  let m ← Schema.members .refused "struct ToolOptions"
    ["xst", "ngdbuild", "map", "par", "bitgen", "commands"] d
  m.check [("xst", Schema.fits Schema.text), ("ngdbuild", Schema.fits Schema.text),
    ("map", Schema.fits Schema.text), ("par", Schema.fits Schema.text),
    ("bitgen", Schema.fits Schema.text), ("commands", Schema.fits Schema.text)]
  return {
    xst := ← m.required "xst" Schema.text
    ngdbuild := ← m.required "ngdbuild" Schema.text
    map := ← m.required "map" Schema.text
    par := ← m.required "par" Schema.text
    bitgen := ← m.required "bitgen" Schema.text
    commands := ← m.required "commands" Schema.text }

end ToolOptions

end FpgaFlow
