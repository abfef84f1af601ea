import FpgaFlow.Proofs.Fragment.Directives

/-!
# Names of lowered registers

A register of a chain is named by the output of the chain, a mark and a number.  The
number is read back from the end, up to the mark, which is no digit, so that a name has
one output and one number (`stageName_inj`).  Hence two primitives give a register the
same name only if they drive the same output (`exists_shared_iff`).

**Main statement** `nodup_registerNames`: the registers of a list of primitives have
different names exactly if the outputs of its chains are different.
-/

namespace FpgaFlow

namespace Fragment

/-! ### Names and numbers -/

/-- A text that ends in the mark does not go on into the digits of a number. -/
theorem eq_nil_of_mark {front other back digits : List Char} (hdigits : 'r' ∉ digits)
    (hback : back <+: digits) (h : front ++ "_mr".toList = other ++ back) : back = [] := by
  rcases List.eq_nil_or_concat' back with hnil | ⟨init, c, rfl⟩
  · exact hnil
  · have hmark : "_mr".toList = "_m".toList ++ ['r'] := by decide
    rw [hmark, ← List.append_assoc, ← List.append_assoc] at h
    have hlast : 'r' = c := by simpa using (List.append_inj' h rfl).2
    rw [← hlast] at hback
    exact absurd (hback.subset (List.mem_append_right init (List.mem_singleton.2 rfl))) hdigits

/-- **A name has one output and one number.** -/
theorem stageName_inj {output other : String} {i j : Nat} :
    stageName output i = stageName other j ↔ output = other ∧ i = j := by
  constructor
  · intro h
    have hlist : output.toList ++ "_mr".toList ++ (toString i).toList =
        other.toList ++ "_mr".toList ++ (toString j).toList := by
      simpa only [stageName, String.toList_append] using congrArg String.toList h
    have hdigits : ∀ n : Nat, 'r' ∉ (toString n).toList := Text.notMem_toString (by decide)
    have hfront : output.toList ++ "_mr".toList = other.toList ++ "_mr".toList := by
      rcases List.append_eq_append_iff.1 hlist with ⟨back, hother, hi⟩ | ⟨back, houtput, hj⟩
      · rw [hother, eq_nil_of_mark (hdigits i) ⟨_, hi.symm⟩ hother, List.append_nil]
      · rw [houtput, eq_nil_of_mark (hdigits j) ⟨_, hj.symm⟩ houtput, List.append_nil]
    have houtput : output = other := String.toList_inj.1 (List.append_cancel_right hfront)
    rw [houtput] at h
    exact ⟨houtput, stageName_injective other h⟩
  · rintro ⟨rfl, rfl⟩
    rfl

/-- The names of the registers of a fragment. -/
def registerNames (f : Fragment) : List String :=
  f.registers.map Register.name

end Fragment

namespace Primitive

open Fragment

/-- What a chain of registers drives. -/
def output? : Primitive → Option String
  | noRetiming _ => none
  | multiReg _ output _ _ _ => some output

theorem mem_registerNames {p : Primitive} {name : String} :
    name ∈ (Lowering.generic p).registerNames ↔
      ∃ input output domain stages width, p = multiReg input output domain stages width ∧
        ∃ i < max stages.toNat 1, name = stageName output i := by
  cases p with
  | noRetiming reg => simp [Lowering.generic, registerNames, Fragment.empty]
  | multiReg input output domain stages width =>
    rw [Lowering.generic, registerNames, names_crossing, List.mem_map]
    constructor
    · rintro ⟨i, hi, rfl⟩
      exact ⟨input, output, domain, stages, width, rfl, i, List.mem_range.1 hi, rfl⟩
    · rintro ⟨_, _, _, _, _, heq, i, hi, rfl⟩
      cases heq
      exact ⟨i, List.mem_range.2 hi, rfl⟩

/-- **Two primitives share a name only if they drive the same output.** Then they do, since every
chain has a first register. -/
theorem exists_shared_iff (p q : Primitive) :
    (∃ name, name ∈ (Lowering.generic p).registerNames ∧
      name ∈ (Lowering.generic q).registerNames) ↔
    ∃ output, p.output? = some output ∧ q.output? = some output := by
  constructor
  · rintro ⟨name, hp, hq⟩
    obtain ⟨_, output, _, _, _, rfl, i, -, rfl⟩ := mem_registerNames.1 hp
    obtain ⟨_, other, _, _, _, rfl, j, -, hname⟩ := mem_registerNames.1 hq
    obtain ⟨rfl, -⟩ := stageName_inj.1 hname
    exact ⟨output, rfl, rfl⟩
  · rintro ⟨output, hp, hq⟩
    have hfirst {r : Primitive} (hr : r.output? = some output) :
        stageName output 0 ∈ (Lowering.generic r).registerNames := by
      cases r with
      | noRetiming reg => cases hr
      | multiReg input o domain stages width =>
        obtain rfl := Option.some.inj hr
        exact mem_registerNames.2 ⟨_, _, _, _, _, rfl, 0, by omega, rfl⟩
    exact ⟨_, hfirst hp, hfirst hq⟩

theorem nodup_registerNames_generic (p : Primitive) : (Lowering.generic p).registerNames.Nodup := by
  cases p with
  | noRetiming reg => exact List.nodup_nil
  | multiReg input output domain stages width => exact nodup_names_crossing

/-- The registers of a list of primitives have different names exactly if the outputs differ. -/
theorem nodup_flatMap_iff (ps : List Primitive) :
    (ps.flatMap fun p => (Lowering.generic p).registerNames).Nodup ↔
      (ps.filterMap output?).Nodup := by
  have happart : ∀ p q : Primitive, (Lowering.generic p).registerNames.Disjoint
      (Lowering.generic q).registerNames ↔
        ∀ o, p.output? = some o → ∀ o', q.output? = some o' → o ≠ o' := by
    intro p q
    constructor
    · rintro hdisjoint o hp _ hq rfl
      obtain ⟨name, hname, hname'⟩ := (exists_shared_iff p q).2 ⟨o, hp, hq⟩
      exact hdisjoint hname hname'
    · intro hne name hname hname'
      obtain ⟨o, hp, hq⟩ := (exists_shared_iff p q).1 ⟨name, hname, hname'⟩
      exact hne o hp o hq rfl
  rw [List.nodup_flatMap, List.Nodup, List.pairwise_filterMap]
  constructor
  · rintro ⟨-, hpairs⟩
    exact hpairs.imp fun {p q} h => (happart p q).1 h
  · intro hpairs
    exact ⟨fun p _ => nodup_registerNames_generic p, hpairs.imp fun {p q} h => (happart p q).2 h⟩

end Primitive

namespace LoweringTable

open Primitive

theorem registerNames_xilinx (p : Primitive) :
    (xilinx.lower p).registerNames = (Lowering.generic p).registerNames := by
  rw [lower_xilinx]
  rfl

/-- **Names collide only for equal outputs.** The registers of a list of primitives have different
names exactly if its chains drive different outputs, on the vendor's platform and on every other.
For two primitives a name is shared exactly if they drive the same output, whatever the outputs
look like. -/
theorem nodup_registerNames (ps : List Primitive) :
    ((ps.flatMap fun p => (xilinx.lower p).registerNames).Nodup ↔
      (ps.filterMap output?).Nodup) ∧
    ((ps.flatMap fun p => (empty.lower p).registerNames).Nodup ↔
      (ps.filterMap output?).Nodup) ∧
    ∀ p q : Primitive,
      ((∃ name, name ∈ (xilinx.lower p).registerNames ∧ name ∈ (xilinx.lower q).registerNames) ↔
        ∃ output, p.output? = some output ∧ q.output? = some output) ∧
      ((∃ name, name ∈ (empty.lower p).registerNames ∧ name ∈ (empty.lower q).registerNames) ↔
        ∃ output, p.output? = some output ∧ q.output? = some output) := by
  simp only [registerNames_xilinx, lower_empty]
  exact ⟨nodup_flatMap_iff ps, nodup_flatMap_iff ps,
    fun p q => ⟨exists_shared_iff p q, exists_shared_iff p q⟩⟩

/-- An output that looks like the name of a register. -/
example : ([.multiReg "a" "x" "sys" 2 1, .multiReg "b" "x_mr1" "sys" 2 1] : List Primitive).flatMap
    (fun p => (xilinx.lower p).registerNames) =
      ["x_mr0", "x_mr1", "x_mr1_mr0", "x_mr1_mr1"] := by
  decide

end LoweringTable

end FpgaFlow
