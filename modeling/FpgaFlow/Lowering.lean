import FpgaFlow.Primitive
import FpgaFlow.Fragment

/-!
# Lowering primitives

A lowering makes a fragment of a primitive. `Lowering.generic` works on every platform; the
lowerings for the vendor's synthesizer give the same registers and assignments and add the
directives that keep the synthesizer from moving or merging them.

A table holds at most one lowering for each kind of primitive. An entry written later replaces the
one before (`lookup_insert`), and a merged table goes over the one it is merged into
(`lookup_merge`).
-/

namespace FpgaFlow

/-- How a primitive is made on a platform. -/
abbrev Lowering := Primitive → Fragment

namespace Lowering

/-- The lowering that works on every platform. A register that must not be retimed needs nothing
there. -/
def generic : Lowering
  | .noRetiming _ => .empty
  | .multiReg input output domain stages width =>
    Fragment.crossing input output domain stages.toNat width

/-- Keeps a register out of register balancing. -/
def keepRegister : Lowering
  | .noRetiming reg =>
    { Fragment.empty with
      directives := [Fragment.attributeDirective "register_balancing" reg "no"] }
  | p => generic p

/-- Keeps every register of a chain out of shift register extraction. -/
def keepChain : Lowering := fun p =>
  let f := generic p
  { f with directives := f.directives ++
      f.registers.map fun r => Fragment.attributeDirective "shreg_extract" r.name "no" }

end Lowering

/-- At most one lowering for each kind of primitive. -/
structure LoweringTable where
  noRetiming : Option Lowering
  multiReg : Option Lowering

namespace LoweringTable

/-- The table without entries. -/
def empty : LoweringTable := ⟨none, none⟩

/-- The entry for a kind. -/
def lookup (t : LoweringTable) : PrimitiveKind → Option Lowering
  | .noRetiming => t.noRetiming
  | .multiReg => t.multiReg

/-- The table with `f` as the entry for `kind`. -/
def insert (t : LoweringTable) (kind : PrimitiveKind) (f : Lowering) : LoweringTable :=
  match kind with
  | .noRetiming => { t with noRetiming := some f }
  | .multiReg => { t with multiReg := some f }

/-- The table with every entry of `upper` put over its own. -/
def merge (t upper : LoweringTable) : LoweringTable :=
  ⟨upper.noRetiming <|> t.noRetiming, upper.multiReg <|> t.multiReg⟩

/-- The lowerings for the vendor's synthesizer. -/
def xilinx : LoweringTable :=
  (empty.insert .noRetiming Lowering.keepRegister).insert .multiReg Lowering.keepChain

/-- The fragment for a primitive, if the table has an entry for it. -/
def lower? (t : LoweringTable) (p : Primitive) : Option Fragment :=
  (t.lookup p.kind).map fun f => f p

/-- The fragment for a primitive; where the table has no entry, the one that works everywhere. -/
def lower (t : LoweringTable) (p : Primitive) : Fragment :=
  (t.lower? p).getD (Lowering.generic p)

/-- The kinds with an entry, by name in ascending order. -/
def kinds (t : LoweringTable) : List PrimitiveKind :=
  [PrimitiveKind.multiReg, .noRetiming].filter fun k => (t.lookup k).isSome

/-- The number of entries. -/
def size (t : LoweringTable) : Nat :=
  t.kinds.length

def isEmpty (t : LoweringTable) : Bool :=
  t.kinds.isEmpty

/-- The text that shows which entries a table has. -/
def describe (t : LoweringTable) : String :=
  "LoweringTable \x7b entries: [" ++
    String.intercalate ", " (t.kinds.map fun k => "\"" ++ k.name ++ "\"") ++ "] \x7d"

theorem ext_lookup {s t : LoweringTable} (h : ∀ k, s.lookup k = t.lookup k) : s = t := by
  cases s
  cases t
  have h₁ := h .noRetiming
  have h₂ := h .multiReg
  simp only [lookup] at h₁ h₂
  simp [h₁, h₂]

@[simp] theorem lookup_empty (k : PrimitiveKind) : empty.lookup k = none := by
  cases k <;> rfl

@[simp] theorem lookup_insert (t : LoweringTable) (k l : PrimitiveKind) (f : Lowering) :
    (t.insert k f).lookup l = if l = k then some f else t.lookup l := by
  cases k <;> cases l <;> simp [insert, lookup]

@[simp] theorem lookup_merge (t upper : LoweringTable) (k : PrimitiveKind) :
    (t.merge upper).lookup k = (upper.lookup k <|> t.lookup k) := by
  cases k <;> rfl

end LoweringTable

end FpgaFlow
