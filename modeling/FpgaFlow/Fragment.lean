import FpgaFlow.Schema

/-!
# Design fragments

A fragment is what a primitive is replaced by: registers, assignments and directives for the
synthesizer. `Fragment.verilog` writes it as the items of a module: one declaration per register,
one clocked block per clock domain in the order in which the domains are first used, one line per
assignment, one comment per directive.

`Fragment.crossing` is the chain of registers that carries a signal into another clock domain. Each
register loads the one before it, and the last one drives the output.
-/

namespace FpgaFlow

/-- A register. On every edge of its domain's clock it loads `next`. -/
structure Register where
  name : String
  width : UInt32
  domain : String
  next : String
  deriving DecidableEq, Repr

namespace Register

def encode (r : Register) : Datum :=
  .map [("name", .text r.name), ("width", .int r.width.toNat), ("domain", .text r.domain),
    ("next", .text r.next)]

def decode : Schema.Reader Register := fun d => do
  let m ← Schema.members .refused "struct Register" ["name", "width", "domain", "next"] d
  m.check [("name", Schema.fits Schema.text), ("width", Schema.fits Schema.word32),
    ("domain", Schema.fits Schema.text), ("next", Schema.fits Schema.text)]
  return {
    name := ← m.required "name" Schema.text
    width := ← m.required "width" Schema.word32
    domain := ← m.required "domain" Schema.text
    next := ← m.required "next" Schema.text }

/-- The declaration of a register. A width of zero or one has no range. -/
def declaration (r : Register) : String :=
  if 1 < r.width then
    "reg [" ++ toString (r.width.toNat - 1) ++ ":0] " ++ r.name ++ ";\n"
  else "reg " ++ r.name ++ ";\n"

/-- The line that loads a register. -/
def load (r : Register) : String :=
  "\t" ++ r.name ++ " <= " ++ r.next ++ ";\n"

end Register

/-- The replacement of a primitive. -/
structure Fragment where
  registers : List Register
  assigns : List (String × String)
  directives : List String
  deriving DecidableEq, Repr

namespace Fragment

/-- The fragment with nothing in it. -/
def empty : Fragment := ⟨[], [], []⟩

/-- The directive that gives `signal` the attribute `name`. -/
def attributeDirective (name signal value : String) : String :=
  "attribute " ++ name ++ " of " ++ signal ++ " is " ++ value

/-- The name of the register number `i` in front of `output`. -/
def stageName (output : String) (i : Nat) : String :=
  output ++ "_mr" ++ toString i

/-- What stands before the register number `i`. -/
def stageInput (input output : String) : Nat → String
  | 0 => input
  | i + 1 => stageName output i

/-- The chain of registers that carries `input` to `output`, in the domain of `output`. It has at
least one stage. -/
def crossing (input output domain : String) (stages : Nat) (width : UInt32) : Fragment where
  registers := (List.range (max stages 1)).map fun i =>
    ⟨stageName output i, width, domain, stageInput input output i⟩
  assigns := [(output, stageName output (max stages 1 - 1))]
  directives := []

/-- The items of a list, each at its first occurrence. -/
def firstUses : List String → List String
  | [] => []
  | s :: ss => s :: (firstUses ss).filter (· != s)

/-- The clock domains of a fragment, in the order of their first use. -/
def domains (f : Fragment) : List String :=
  firstUses (f.registers.map Register.domain)

/-- The clocked block of one domain. -/
def block (registers : List Register) (domain : String) : String :=
  "always @(posedge " ++ domain ++ "_clk) begin\n" ++
    String.join ((registers.filter fun r => r.domain == domain).map Register.load) ++ "end\n"

def assignLine (target expression : String) : String :=
  "assign " ++ target ++ " = " ++ expression ++ ";\n"

def directiveLine (directive : String) : String :=
  "// synthesis " ++ directive ++ "\n"

/-- A fragment as the items of a module. -/
def verilog (f : Fragment) : String :=
  String.join (f.registers.map Register.declaration) ++
    String.join (f.domains.map (block f.registers)) ++
    String.join (f.assigns.map fun (target, expression) => assignLine target expression) ++
    String.join (f.directives.map directiveLine)

/-- A pair of texts is a list of two. -/
def encodeAssign (a : String × String) : Datum :=
  .list [.text a.1, .text a.2]

def decodeAssign : Schema.Reader (String × String)
  | .list [] => .error (.wrongLength 0 "a tuple of size 2")
  | .list [a] => do
    let _ ← Schema.text a
    .error (.wrongLength 1 "a tuple of size 2")
  | .list [a, b] => do return (← Schema.text a, ← Schema.text b)
  | .list (a :: b :: rest) => do
    let _ ← Schema.text a
    let _ ← Schema.text b
    .error (.wrongLength (rest.length + 2) "fewer elements in array")
  | d => .error (.wrongType d "a tuple of size 2")

def encode (f : Fragment) : Datum :=
  .map [("registers", .list (f.registers.map Register.encode)),
    ("assigns", .list (f.assigns.map encodeAssign)),
    ("directives", Datum.texts f.directives)]

def decode : Schema.Reader Fragment := fun d => do
  let m ← Schema.members .refused "struct DesignFragment" ["registers", "assigns", "directives"] d
  m.check [("registers", Schema.fits (Schema.listOf Register.decode)),
    ("assigns", Schema.fits (Schema.listOf decodeAssign)),
    ("directives", Schema.fits (Schema.listOf Schema.text))]
  return {
    registers := ← m.required "registers" (Schema.listOf Register.decode)
    assigns := ← m.required "assigns" (Schema.listOf decodeAssign)
    directives := ← m.required "directives" (Schema.listOf Schema.text) }

end Fragment

end FpgaFlow
