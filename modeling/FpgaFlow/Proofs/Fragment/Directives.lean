import FpgaFlow.Manifest
import FpgaFlow.Proofs.Fragment.DelayLine
import FpgaFlow.Proofs.Text.Lines

/-!
# Directives of lowered primitives

A fragment is written line by line (`verilog_eq`).  The lines of its directives come last
and are the only ones that begin with `// synthesis` (`filter_lines`), as long as no name
has the end of a line in it (`Unbroken`).

The lowerings for the vendor's synthesizer give what the lowering for every platform
gives, with directives added (`lower_xilinx`).

**Main statement** `xilinx_only_marks`: the directives are those that keep each register
of a chain, or the one register, and without their lines the items of a module are those
that are written for every platform.
-/

namespace FpgaFlow

namespace Fragment

/-! ### The lines of a fragment -/

/-- The declaration of a register, without the end of the line. -/
def declarationText (r : Register) : String :=
  (if 1 < r.width then "reg [" ++ toString (r.width.toNat - 1) ++ ":0] " else "reg ") ++
    r.name ++ ";"

def loadText (r : Register) : String :=
  "\t" ++ r.name ++ " <= " ++ r.next ++ ";"

/-- The lines of a clocked block. -/
def blockLines (registers : List Register) (domain : String) : List String :=
  ("always @(posedge " ++ domain ++ "_clk) begin") ::
    ((registers.filter fun r => r.domain == domain).map loadText ++ ["end"])

def assignText (a : String × String) : String :=
  "assign " ++ a.1 ++ " = " ++ a.2 ++ ";"

def directiveText (directive : String) : String :=
  "// synthesis " ++ directive

/-- The lines before those of the directives. -/
def logicLines (f : Fragment) : List String :=
  f.registers.map declarationText ++ f.domains.flatMap (blockLines f.registers) ++
    f.assigns.map assignText

/-- The lines of a fragment. -/
def lines (f : Fragment) : List String :=
  f.logicLines ++ f.directives.map directiveText

theorem declaration_eq (r : Register) : r.declaration = declarationText r ++ "\n" := by
  have hend : ";\n" = ";" ++ "\n" := rfl
  rw [Register.declaration, declarationText]
  split
  · simp only [hend, String.append_assoc]
  · simp only [hend, String.append_assoc]

theorem block_eq (registers : List Register) (domain : String) :
    block registers domain =
      String.join ((blockLines registers domain).map fun l => l ++ "\n") := by
  have hload : ∀ r : Register, r.load = loadText r ++ "\n" := by
    intro r
    have hend : ";\n" = ";" ++ "\n" := rfl
    simp only [Register.load, loadText, hend, String.append_assoc]
  have hbegin : "_clk) begin\n" = "_clk) begin" ++ "\n" := by decide
  have hend : "end\n" = "end" ++ "\n" := by decide
  -- the equation that `rw` derives for this definition takes very long
  unfold block
  simp only [blockLines, Text.join_map hload, List.map_cons, List.map_append, List.map_nil,
    String.join_cons, String.join_append, String.join_nil, String.append_empty, hbegin, hend,
    String.append_assoc]

theorem assignLine_eq (a : String × String) : assignLine a.1 a.2 = assignText a ++ "\n" := by
  have hend : ";\n" = ";" ++ "\n" := rfl
  simp only [assignLine, assignText, hend, String.append_assoc]

/-- **A fragment is written line by line.** -/
theorem verilog_eq (f : Fragment) : f.verilog = String.join (f.lines.map fun l => l ++ "\n") := by
  have hdirective : ∀ d, directiveLine d = directiveText d ++ "\n" := fun _ => rfl
  rw [verilog, Text.join_map declaration_eq, Text.join_flatMap (block_eq f.registers),
    Text.join_map assignLine_eq, Text.join_map hdirective, lines, logicLines, List.map_append,
    List.map_append, List.map_append, String.join_append, String.join_append, String.join_append]

/-! ### Lines that are directives -/

/-- The texts that a fragment is written with. -/
def texts (f : Fragment) : List String :=
  f.registers.flatMap (fun r => [r.name, r.domain, r.next]) ++
    f.assigns.flatMap (fun a => [a.1, a.2]) ++ f.directives

/-- No text of a fragment goes over the end of a line. -/
def Unbroken (f : Fragment) : Prop :=
  ∀ s ∈ f.texts, '\n' ∉ s.toList

/-- Lines that the synthesizer reads as directives. -/
def isDirective (line : List Char) : Bool :=
  "// synthesis".toList.isPrefixOf line

theorem isDirective_directiveText (d : String) : isDirective (directiveText d).toList = true := by
  rw [isDirective, List.isPrefixOf_iff_prefix, directiveText, String.toList_append]
  exact ⟨' ' :: d.toList, by simp⟩

/-- A line that begins with another character is not a directive. -/
theorem isDirective_of_head {l : String} (h : l.toList.head? ≠ some '/') :
    isDirective l.toList = false := by
  have hfirst : "// synthesis".toList = '/' :: "/ synthesis".toList := by decide
  rw [isDirective, hfirst]
  cases hl : l.toList with
  | nil => rfl
  | cons c cs =>
    have hc : c ≠ '/' := by simpa [hl] using h
    rw [List.isPrefixOf_cons_cons, beq_false_of_ne hc.symm, Bool.false_and]

/-- Where a line of a fragment comes from. -/
theorem mem_logicLines {f : Fragment} {l : String} (h : l ∈ f.logicLines) :
    (∃ r ∈ f.registers, l = declarationText r ∨ l = loadText r) ∨ l = "end" ∨
      (∃ domain ∈ f.domains, l = "always @(posedge " ++ domain ++ "_clk) begin") ∨
      ∃ a ∈ f.assigns, l = assignText a := by
  simp only [logicLines, blockLines, List.mem_append, List.mem_map, List.mem_flatMap,
    List.mem_cons, List.mem_filter, List.not_mem_nil, or_false] at h
  grind

theorem isDirective_of_mem_logicLines {f : Fragment} {l : String} (h : l ∈ f.logicLines) :
    isDirective l.toList = false := by
  apply isDirective_of_head
  rcases mem_logicLines h with ⟨r, -, rfl | rfl⟩ | rfl | ⟨domain, -, rfl⟩ | ⟨a, -, rfl⟩
  · rw [declarationText]
    split <;> simp
  · simp [loadText]
  · simp
  · simp
  · simp [assignText]

theorem mem_firstUses {s : String} {ss : List String} : s ∈ firstUses ss ↔ s ∈ ss := by
  induction ss with
  | nil => rfl
  | cons t ss ih =>
    rw [firstUses, List.mem_cons, List.mem_cons, List.mem_filter, ih, bne_iff_ne]
    tauto

theorem Unbroken.register {f : Fragment} (hf : f.Unbroken) {r : Register} (hr : r ∈ f.registers) :
    '\n' ∉ r.name.toList ∧ '\n' ∉ r.domain.toList ∧ '\n' ∉ r.next.toList := by
  have hmem : ∀ s ∈ [r.name, r.domain, r.next], s ∈ f.texts := by
    intro s hs
    exact List.mem_append_left _ (List.mem_append_left _ (List.mem_flatMap.2 ⟨r, hr, hs⟩))
  exact ⟨hf _ (hmem _ (by simp)), hf _ (hmem _ (by simp)), hf _ (hmem _ (by simp))⟩

theorem Unbroken.assign {f : Fragment} (hf : f.Unbroken) {a : String × String}
    (ha : a ∈ f.assigns) : '\n' ∉ a.1.toList ∧ '\n' ∉ a.2.toList := by
  have hmem : ∀ s ∈ [a.1, a.2], s ∈ f.texts := by
    intro s hs
    exact List.mem_append_left _ (List.mem_append_right _ (List.mem_flatMap.2 ⟨a, ha, hs⟩))
  exact ⟨hf _ (hmem _ (by simp)), hf _ (hmem _ (by simp))⟩

/-- A line of a fragment ends where the fragment ends it. -/
theorem newline_notMem_of_mem_lines {f : Fragment} (hf : f.Unbroken) {l : String}
    (h : l ∈ f.lines) : '\n' ∉ l.toList := by
  rcases List.mem_append.1 h with hlogic | hdirective
  · rcases mem_logicLines hlogic with
      ⟨r, hr, rfl | rfl⟩ | rfl | ⟨domain, hdomain, rfl⟩ | ⟨a, ha, rfl⟩
    · have hnumber : '\n' ∉ (toString (r.width.toNat - 1)).toList :=
        Text.notMem_toString (by decide) _
      have hname := (hf.register hr).1
      rw [declarationText]
      split
      · simpa [hname] using hnumber
      · simp [hname]
    · obtain ⟨hname, -, hnext⟩ := hf.register hr
      simp [loadText, hname, hnext]
    · decide
    · obtain ⟨r, hr, rfl⟩ := List.mem_map.1 (mem_firstUses.1 hdomain)
      simp [(hf.register hr).2.1]
    · obtain ⟨htarget, hexpression⟩ := hf.assign ha
      simp [assignText, htarget, hexpression]
  · obtain ⟨d, hd, rfl⟩ := List.mem_map.1 hdirective
    have hplain : '\n' ∉ d.toList := hf d (List.mem_append_right _ hd)
    simp [directiveText, hplain]

/-- **The directives are the lines that begin as directives do.** -/
theorem filter_lines (f : Fragment) :
    (f.lines.filter fun l => !isDirective l.toList) = f.logicLines := by
  have hlogic : (f.logicLines.filter fun l => !isDirective l.toList) = f.logicLines :=
    List.filter_eq_self.2 fun l hl => by rw [isDirective_of_mem_logicLines hl, Bool.not_false]
  have hdirectives :
      ((f.directives.map directiveText).filter fun l => !isDirective l.toList) = [] := by
    rw [List.filter_eq_nil_iff]
    intro l hl
    obtain ⟨d, -, rfl⟩ := List.mem_map.1 hl
    simp [isDirective_directiveText]
  rw [lines, List.filter_append, hlogic, hdirectives, List.append_nil]

end Fragment

/-! ### Lowerings for the vendor's synthesizer -/

namespace Primitive

/-- The texts that a primitive is described by. -/
def texts : Primitive → List String
  | noRetiming reg => [reg]
  | multiReg input output domain _ _ => [input, output, domain]

/-- No text of a primitive goes over the end of a line. -/
def Unbroken (p : Primitive) : Prop :=
  ∀ s ∈ p.texts, '\n' ∉ s.toList

instance (p : Primitive) : Decidable p.Unbroken :=
  inferInstanceAs (Decidable (∀ s ∈ p.texts, '\n' ∉ s.toList))

/-- The directives that the vendor's synthesizer needs for a primitive. -/
def directives (p : Primitive) : List String :=
  match p with
  | noRetiming reg => [Fragment.attributeDirective "register_balancing" reg "no"]
  | multiReg .. => (Lowering.generic p).registers.map fun r =>
      Fragment.attributeDirective "shreg_extract" r.name "no"

end Primitive

namespace LoweringTable

open Fragment

/-- The lowerings of the vendor add the directives, and change nothing else. -/
theorem lower_xilinx (p : Primitive) :
    xilinx.lower p = { Lowering.generic p with directives := p.directives } := by
  cases p <;> rfl

theorem lower_empty (p : Primitive) : empty.lower p = Lowering.generic p := by
  cases p <;> rfl

theorem directives_generic (p : Primitive) : (Lowering.generic p).directives = [] := by
  cases p <;> rfl

theorem unbroken_crossing {input output domain : String} (stages : Nat) (width : UInt32)
    (hinput : '\n' ∉ input.toList) (houtput : '\n' ∉ output.toList)
    (hdomain : '\n' ∉ domain.toList) : (crossing input output domain stages width).Unbroken := by
  have hname : ∀ i, '\n' ∉ (stageName output i).toList := by
    intro i
    have hnumber : '\n' ∉ (toString i).toList := Text.notMem_toString (by decide) i
    exact newline_notMem_append (newline_notMem_append houtput (by decide)) hnumber
  have hnext : ∀ i, '\n' ∉ (stageInput input output i).toList := by
    intro i
    cases i with
    | zero => exact hinput
    | succ i => exact hname i
  intro s hs
  simp only [texts, crossing, List.mem_append, List.mem_flatMap, List.mem_map, List.mem_range,
    List.mem_cons, List.not_mem_nil, or_false] at hs
  rcases hs with ⟨r, ⟨i, -, rfl⟩, rfl | rfl | rfl⟩ | ⟨a, rfl, rfl | rfl⟩
  · exact hname i
  · exact hdomain
  · exact hnext i
  · exact houtput
  · exact hname _

theorem unbroken_generic {p : Primitive} (hp : p.Unbroken) : (Lowering.generic p).Unbroken := by
  cases p with
  | noRetiming reg =>
    intro s hs
    cases hs
  | multiReg input output domain stages width =>
    have hmem : ∀ s ∈ [input, output, domain], '\n' ∉ s.toList := hp
    exact unbroken_crossing stages.toNat width (hmem _ (by simp)) (hmem _ (by simp))
      (hmem _ (by simp))

theorem unbroken_xilinx {p : Primitive} (hp : p.Unbroken) : (xilinx.lower p).Unbroken := by
  have hattribute {name value : String} (signal : String) (hname : '\n' ∉ name.toList)
      (hvalue : '\n' ∉ value.toList) (hsignal : '\n' ∉ signal.toList) :
      '\n' ∉ (attributeDirective name signal value).toList := by
    simp [attributeDirective, hname, hsignal, hvalue]
  have hdirective : ∀ d ∈ p.directives, '\n' ∉ d.toList := by
    intro d hd
    cases p with
    | noRetiming reg =>
      obtain rfl := List.mem_singleton.1 hd
      exact hattribute reg (by decide) (by decide) (hp reg List.mem_cons_self)
    | multiReg input output domain stages width =>
      obtain ⟨r, hr, rfl⟩ := List.mem_map.1 hd
      exact hattribute r.name (by decide) (by decide) ((unbroken_generic hp).register hr).1
  intro s hs
  rw [lower_xilinx] at hs
  rcases List.mem_append.1 hs with hlogic | hs
  · exact unbroken_generic hp s (List.mem_append_left _ hlogic)
  · exact hdirective s hs

/-- Without the lines of the directives the items are those for every platform. -/
theorem withoutLines_items {ps : List Primitive} (hps : ∀ p ∈ ps, p.Unbroken) :
    Text.withoutLines isDirective (PrecompiledDesign.items xilinx ps) =
      PrecompiledDesign.items empty ps := by
  have hitems : ∀ table : LoweringTable, PrecompiledDesign.items table ps =
      String.join ((ps.flatMap fun p => (table.lower p).lines).map fun l => l ++ "\n") :=
    fun table => Text.join_flatMap (fun p => verilog_eq (table.lower p)) ps
  have hunbroken : ∀ l ∈ ps.flatMap fun p => (xilinx.lower p).lines, '\n' ∉ l.toList := by
    intro l hl
    obtain ⟨p, hp, hmem⟩ := List.mem_flatMap.1 hl
    exact newline_notMem_of_mem_lines (unbroken_xilinx (hps p hp)) hmem
  have hkept : ∀ p : Primitive, ((xilinx.lower p).lines.filter fun l => !isDirective l.toList) =
      (empty.lower p).lines := by
    intro p
    rw [filter_lines, lower_xilinx, lower_empty, lines, directives_generic, List.map_nil,
      List.append_nil]
    rfl
  rw [hitems, hitems, Text.withoutLines_join hunbroken rfl, List.filter_flatMap]
  simp only [hkept]

/-- No directive is given twice. -/
theorem nodup_directives (p : Primitive) : p.directives.Nodup := by
  cases p with
  | noRetiming reg => exact List.nodup_singleton _
  | multiReg input output domain stages width =>
    have hinjective :
        Function.Injective fun name => attributeDirective "shreg_extract" name "no" := by
      intro s t h
      have hfront := (String.append_left_inj _).1 ((String.append_left_inj _).1 h)
      exact (String.append_right_inj _).1 hfront
    have hnames : ((crossing input output domain stages.toNat width).registers.map
        Register.name).Nodup := nodup_names_crossing
    have hmarks := hnames.map hinjective
    rw [List.map_map] at hmarks
    exact hmarks

theorem attributeDirective_no {name front : String} (h : "attribute " ++ name ++ " of " = front)
    (signal : String) : attributeDirective name signal "no" = front ++ signal ++ " is no" := by
  have hback : " is no" = " is " ++ "no" := rfl
  rw [attributeDirective, h, hback]
  simp only [String.append_assoc]

/-- An entry of the table gives what the lowering for every platform gives, also for primitives of
the other kind, which it does not mark. -/
theorem entry_xilinx (kind : PrimitiveKind) :
    ∃ lowering, xilinx.lookup kind = some lowering ∧ ∀ p,
      (lowering p).registers = (Lowering.generic p).registers ∧
      (lowering p).assigns = (Lowering.generic p).assigns ∧
      (p.kind ≠ kind → (lowering p).directives = []) := by
  cases kind with
  | noRetiming =>
    refine ⟨Lowering.keepRegister, rfl, fun p => ?_⟩
    cases p with
    | noRetiming reg => exact ⟨rfl, rfl, fun h => absurd rfl h⟩
    | multiReg => exact ⟨rfl, rfl, fun _ => rfl⟩
  | multiReg =>
    refine ⟨Lowering.keepChain, rfl, fun p => ⟨rfl, rfl, fun h => ?_⟩⟩
    cases p with
    | noRetiming reg => rfl
    | multiReg => exact absurd rfl h

/-- **The lowerings of the vendor only mark registers.** They mark each register of a chain once,
and the register that retiming must leave alone.  Without the lines of the directives the items are
those for every platform. -/
theorem xilinx_only_marks :
    (∀ kind, ∃ lowering, xilinx.lookup kind = some lowering ∧ ∀ p,
      (lowering p).registers = (Lowering.generic p).registers ∧
      (lowering p).assigns = (Lowering.generic p).assigns ∧
      (p.kind ≠ kind → (lowering p).directives = [])) ∧
    (∀ input output domain stages width, ∃ f,
      xilinx.lower? (.multiReg input output domain stages width) = some f ∧
      f.registers.map Register.name =
        (List.range (max stages.toNat 1)).map (fun i => output ++ "_mr" ++ toString i) ∧
      f.directives =
        f.registers.map (fun r => "attribute shreg_extract of " ++ r.name ++ " is no") ∧
      f.directives.Nodup) ∧
    (∀ reg, ∃ f, xilinx.lower? (.noRetiming reg) = some f ∧
      f.directives = ["attribute register_balancing of " ++ reg ++ " is no"]) ∧
    ∀ ps : List Primitive, (∀ p ∈ ps, p.Unbroken) →
      Text.withoutLines isDirective (PrecompiledDesign.items xilinx ps) =
        PrecompiledDesign.items empty ps := by
  refine ⟨entry_xilinx, ?_, ?_, fun ps hps => withoutLines_items hps⟩
  · intro input output domain stages width
    have hmark : ∀ signal, attributeDirective "shreg_extract" signal "no" =
        "attribute shreg_extract of " ++ signal ++ " is no" := attributeDirective_no (by decide)
    exact ⟨_, rfl, names_crossing, List.map_congr_left fun r _ => hmark r.name,
      nodup_directives (.multiReg input output domain stages width)⟩
  · intro reg
    have hmark : attributeDirective "register_balancing" reg "no" =
        "attribute register_balancing of " ++ reg ++ " is no" :=
      attributeDirective_no (by decide) reg
    exact ⟨_, rfl, congrArg (fun d => [d]) hmark⟩

/-- A chain of two registers, and a register that retiming must leave alone. -/
def syncedCounter : List Primitive :=
  [.multiReg "gray" "gray_sync" "eth_rx" 2 4, .noRetiming "crc_reg"]

theorem marks_syncedCounter : (∀ p ∈ syncedCounter, p.Unbroken) ∧
    Text.withoutLines isDirective (PrecompiledDesign.items xilinx syncedCounter) =
      PrecompiledDesign.items empty syncedCounter := by
  have hunbroken : ∀ p ∈ syncedCounter, p.Unbroken := by
    decide
  exact ⟨hunbroken, xilinx_only_marks.2.2.2 _ hunbroken⟩

end LoweringTable

end FpgaFlow
