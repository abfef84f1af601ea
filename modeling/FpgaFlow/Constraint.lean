import FpgaFlow.Schema

/-!
# Constraints on signals

A signal of the top module is bound to one pin, or to one pin per bit. It carries attributes, and
it remembers the resource of the platform it was requested from. A clock is constrained by its
period (`periodCommand`).
-/

namespace FpgaFlow

/-- An electrical or placement attribute of a signal. Attributes meant for other toolchains are
kept as `other` and have no clause. -/
inductive Attribute where
  | location (pin : String)
  | ioStandard (standard : String)
  | drive (strength : UInt32)
  | misc (clause : String)
  | other (kind value : String)
  deriving DecidableEq, Repr

namespace Attribute

def encode : Attribute → Datum
  | location pin => .map [("location", .text pin)]
  | ioStandard standard => .map [("io_standard", .text standard)]
  | drive strength => .map [("drive", .int strength.toNat)]
  | misc clause => .map [("misc", .text clause)]
  | other kind value => .map [("other", .map [("kind", .text kind), ("value", .text value)])]

/-- The members of an `other` attribute. -/
def decodeOther : Schema.Reader Attribute
  | .map entries => do
    let m : Schema.Members := ⟨entries, none, none⟩
    m.check [("kind", Schema.fits Schema.text), ("value", Schema.fits Schema.text)]
    return .other (← m.required "kind" Schema.text) (← m.required "value" Schema.text)
  | d => .error (.wrongType d "struct variant")

/-- The readers of what each kind of attribute holds. -/
def readers : List (String × Schema.Reader Attribute) :=
  [("location", fun d => (Schema.text d).map location),
    ("io_standard", fun d => (Schema.text d).map ioStandard),
    ("drive", fun d => (Schema.word32 d).map drive),
    ("misc", fun d => (Schema.text d).map misc),
    ("other", decodeOther)]

/-- An attribute is a map with its kind as the only key. -/
def decode : Schema.Reader Attribute
  | .map [(kind, d)] => match readers.lookup kind with
    | some reader => reader d
    | none => .error (.unknownVariant kind (readers.map Prod.fst))
  | .map entries => .error (.wrongValue (.map entries) "map with a single key")
  | .text kind => match readers.lookup kind with
    | some _ => .error (.bareVariant
        (if kind = "other" then "struct variant" else "newtype variant"))
    | none => .error (.unknownVariant kind (readers.map Prod.fst))
  | d => .error (.wrongType d "string or map")

end Attribute

/-- The resource of a platform that a signal was requested from. -/
structure Resource where
  kind : String
  index : UInt32
  subsignal : Option String
  deriving DecidableEq, Repr

namespace Resource

/-- The name of a resource: its kind and index, and the subsignal after a point. -/
def name (r : Resource) : String :=
  r.kind ++ ":" ++ toString r.index.toNat ++
    match r.subsignal with
    | some sub => "." ++ sub
    | none => ""

def encode (r : Resource) : Datum :=
  .map [("kind", .text r.kind), ("index", .int r.index.toNat),
    ("subindex", Datum.ofOption .text r.subsignal)]

def decode : Schema.Reader Resource := fun d => do
  let m ← Schema.members .refused "struct ResourceName" ["kind", "index", "subindex"] d
  m.check [("kind", Schema.fits Schema.text), ("index", Schema.fits Schema.word32),
    ("subindex", Schema.fits (Schema.optional Schema.text))]
  return {
    kind := ← m.required "kind" Schema.text
    index := ← m.required "index" Schema.word32
    subsignal := ← m.optional "subindex" Schema.text }

end Resource

/-- The pins and attributes of a signal of the top module. -/
structure SignalConstraint where
  signal : String
  pins : List String
  attributes : List Attribute
  resource : Resource
  deriving DecidableEq, Repr

namespace SignalConstraint

/-- A signal with more than one pin is a vector. -/
def isVector (c : SignalConstraint) : Bool :=
  1 < c.pins.length

def encode (c : SignalConstraint) : Datum :=
  .map [("signal", .text c.signal), ("pins", Datum.texts c.pins),
    ("attributes", .list (c.attributes.map Attribute.encode)), ("resource", c.resource.encode)]

def decode : Schema.Reader SignalConstraint := fun d => do
  let m ← Schema.members .refused "struct SignalConstraint"
    ["signal", "pins", "attributes", "resource"] d
  m.check [("signal", Schema.fits Schema.text),
    ("pins", Schema.fits (Schema.listOf Schema.text)),
    ("attributes", Schema.fits (Schema.listOf Attribute.decode)),
    ("resource", Schema.fits Resource.decode)]
  return {
    signal := ← m.required "signal" Schema.text
    pins := ← m.required "pins" (Schema.listOf Schema.text)
    attributes := ← m.required "attributes" (Schema.listOf Attribute.decode)
    resource := ← m.required "resource" Resource.decode }

end SignalConstraint

/-- The command that constrains a clock to a period in nanoseconds. -/
def periodCommand (clock : String) (period : Decimal.Binary64) : String :=
  "NET \"" ++ clock ++ "\" TNM_NET = \"GRP" ++ clock ++ "\";\n" ++
    "TIMESPEC \"TS" ++ clock ++ "\" = PERIOD \"GRP" ++ clock ++ "\" " ++ period.plain ++
    " ns HIGH 50%;"

end FpgaFlow
