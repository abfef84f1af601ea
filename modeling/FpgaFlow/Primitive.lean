import FpgaFlow.Schema

/-!
# Primitives

A design may ask for primitives that each platform makes in its own way: a register that retiming
must leave alone, and a chain of registers that carries a signal into another clock domain.
-/

namespace FpgaFlow

/-- The kinds of primitives. -/
inductive PrimitiveKind where
  | noRetiming
  | multiReg
  deriving DecidableEq, Repr

namespace PrimitiveKind

def name : PrimitiveKind → String
  | noRetiming => "no_retiming"
  | multiReg => "multi_reg"

/-- The kinds by name. -/
def byName : List (String × PrimitiveKind) :=
  [("no_retiming", noRetiming), ("multi_reg", multiReg)]

def encode (k : PrimitiveKind) : Datum :=
  .text k.name

def decode : Schema.Reader PrimitiveKind :=
  Schema.oneOf byName

end PrimitiveKind

/-- A primitive that a design asks for. -/
inductive Primitive where
  | noRetiming (reg : String)
  | multiReg (input output domain : String) (stages : UInt64) (width : UInt32)
  deriving DecidableEq, Repr

namespace Primitive

def kind : Primitive → PrimitiveKind
  | noRetiming _ => .noRetiming
  | multiReg .. => .multiReg

/-- The number of stages when none is given. -/
def defaultStages : UInt64 := 2

/-- The width when none is given. -/
def defaultWidth : UInt32 := 1

def encode : Primitive → Datum
  | noRetiming reg => .map [("kind", .text "no_retiming"), ("reg", .text reg)]
  | multiReg input output domain stages width =>
    .map [("kind", .text "multi_reg"), ("input", .text input), ("output", .text output),
      ("odomain", .text domain), ("stages", .int stages.toNat), ("width", .int width.toNat)]

/-- The kind that the value of the tag names. -/
def decodeKind : Schema.Reader PrimitiveKind
  | .text s => match PrimitiveKind.byName.lookup s with
    | some kind => .ok kind
    | none => .error (.unknownVariant s (PrimitiveKind.byName.map Prod.fst))
  | d => .error (.wrongType d "variant identifier")

/-- A primitive of a known kind. -/
def decodeAs (kind : PrimitiveKind) (d : Datum) : Except Schema.Mismatch Primitive :=
  match kind with
  | .noRetiming => do
    let m ← Schema.members .counted "struct variant LoweringRequest::NoRetiming" ["reg"] d
    m.check [("reg", Schema.fits Schema.text)]
    return .noRetiming (← m.required "reg" Schema.text)
  | .multiReg => do
    let m ← Schema.members .counted "struct variant LoweringRequest::MultiReg"
      ["input", "output", "odomain", "stages", "width"] d
    m.check [("input", Schema.fits Schema.text), ("output", Schema.fits Schema.text),
      ("odomain", Schema.fits Schema.text), ("stages", Schema.fits Schema.word64),
      ("width", Schema.fits Schema.word32)]
    return .multiReg
      (← m.required "input" Schema.text)
      (← m.required "output" Schema.text)
      (← m.required "odomain" Schema.text)
      (← m.withDefault "stages" defaultStages Schema.word64)
      (← m.withDefault "width" defaultWidth Schema.word32)

/-- A primitive is a map whose `kind` decides which other members it has. -/
def decode : Schema.Reader Primitive
  | .map entries => match entries.lookup "kind" with
    | some tag => do
      let kind ← decodeKind tag
      decodeAs kind (.map (entries.filter fun e => e.1 != "kind"))
    | none => .error (.missing "kind")
  | .list (tag :: rest) => do
    let kind ← decodeKind tag
    decodeAs kind (.list rest)
  | .list [] => .error (.missing "kind")
  | d => .error (.wrongType d "internally tagged enum LoweringRequest")

end Primitive

end FpgaFlow
