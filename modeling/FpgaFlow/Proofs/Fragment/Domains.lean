import FpgaFlow.Proofs.Fragment.Directives

/-!
# Clocked blocks of a fragment

The registers of a fragment are written in one clocked block for each clock domain.  The
domains come in the order of their first use (`pairwise_firstUses`), so none comes twice,
and each block takes the registers of its domain out of the list.  For domains that are
all different, what is taken out is what belongs to one of them
(`perm_flatMap_filter`); the domains of a fragment are those of its registers, so that
the blocks divide the registers among them (`divides_domains`).

**Main statement** `verilog_divides`: the text of a fragment declares every register,
loads every register once, in the block of its domain, and then has every assignment and
every directive.
-/

namespace FpgaFlow.Fragment

/-! ### First uses -/

/-- **What is used first comes first.** -/
theorem pairwise_firstUses (ss : List String) :
    (firstUses ss).Pairwise fun s t => ss.idxOf s < ss.idxOf t := by
  induction ss with
  | nil => exact .nil
  | cons s ss ih =>
    have hother : ∀ t ∈ (firstUses ss).filter (· != s),
        (s :: ss).idxOf t = ss.idxOf t + 1 := by
      intro t ht
      have hne : t ≠ s := bne_iff_ne.1 (List.mem_filter.1 ht).2
      exact List.idxOf_cons_ne ss hne.symm
    rw [firstUses]
    refine List.pairwise_cons.2 ⟨fun t ht => ?_, (ih.filter _).imp_of_mem fun ht hu hlt => ?_⟩
    · rw [List.idxOf_cons_self, hother t ht]
      omega
    · rw [hother _ ht, hother _ hu]
      omega

theorem nodup_firstUses (ss : List String) : (firstUses ss).Nodup := by
  refine (pairwise_firstUses ss).imp fun hlt heq => ?_
  rw [heq] at hlt
  omega

/-! ### Registers by domain -/

/-- For different domains, the registers of one domain after the other are the registers that
belong to one of them. -/
theorem perm_flatMap_filter {domains : List String} (h : domains.Nodup)
    (registers : List Register) :
    (domains.flatMap fun d => registers.filter fun r => r.domain == d).Perm
      (registers.filter fun r => decide (r.domain ∈ domains)) := by
  induction domains with
  | nil => simp
  | cons d domains ih =>
    obtain ⟨hd, hdomains⟩ := List.nodup_cons.1 h
    have hown : (registers.filter fun r => decide (r.domain ∈ d :: domains)).filter
        (fun r => r.domain == d) = registers.filter fun r => r.domain == d := by
      rw [List.filter_filter]
      refine List.filter_congr fun r _ => ?_
      by_cases hr : r.domain = d
      · simp [hr]
      · simp [hr]
    have hrest : (registers.filter fun r => decide (r.domain ∈ d :: domains)).filter
        (fun r => !(r.domain == d)) = registers.filter fun r => decide (r.domain ∈ domains) := by
      rw [List.filter_filter]
      refine List.filter_congr fun r _ => ?_
      by_cases hr : r.domain = d
      · simp [hr, hd]
      · simp [hr]
    have hsplit := List.filter_append_perm (fun r : Register => r.domain == d)
      (registers.filter fun r => decide (r.domain ∈ d :: domains))
    rw [hown, hrest] at hsplit
    rw [List.flatMap_cons]
    exact ((ih hdomains).append_left _).trans hsplit

/-- Blocks of registers, each with its clock domain, that divide the registers of a list among
them. -/
structure Divides (registers : List Register) (blocks : List (String × List Register)) : Prop where
  /-- Every domain that is used has a block, and no other. -/
  used : ∀ d, d ∈ blocks.map Prod.fst ↔ ∃ r ∈ registers, r.domain = d
  /-- No domain has two. -/
  distinct : (blocks.map Prod.fst).Nodup
  /-- The domains come in the order of their first use. -/
  firstUse : (blocks.map Prod.fst).Pairwise fun d e =>
    (registers.map Register.domain).idxOf d < (registers.map Register.domain).idxOf e
  /-- A block has registers of its own domain only, -/
  own : ∀ b ∈ blocks, ∀ r ∈ b.2, r.domain = b.1
  /-- in the order that they have in the list. -/
  inOrder : ∀ b ∈ blocks, b.2.Sublist registers
  /-- No register is lost or repeated. -/
  complete : (blocks.flatMap Prod.snd).Perm registers

/-- **The domains of a fragment divide its registers among them.** -/
theorem divides_domains (f : Fragment) : Divides f.registers
    (f.domains.map fun d => (d, f.registers.filter fun r => r.domain == d)) := by
  have hfst : (f.domains.map fun d => (d, f.registers.filter fun r => r.domain == d)).map
      Prod.fst = f.domains := by
    rw [List.map_map]
    exact List.map_id _
  have hused : ∀ d, d ∈ f.domains ↔ ∃ r ∈ f.registers, r.domain = d := by
    intro d
    rw [domains, mem_firstUses, List.mem_map]
  constructor
  case used =>
    rw [hfst]
    exact hused
  case distinct =>
    rw [hfst]
    exact nodup_firstUses _
  case firstUse =>
    rw [hfst]
    exact pairwise_firstUses _
  case own =>
    intro b hb r hr
    obtain ⟨d, -, rfl⟩ := List.mem_map.1 hb
    exact beq_iff_eq.1 (List.mem_filter.1 hr).2
  case inOrder =>
    intro b hb
    obtain ⟨d, -, rfl⟩ := List.mem_map.1 hb
    exact List.filter_sublist
  case complete =>
    have hall : (f.registers.filter fun r => decide (r.domain ∈ f.domains)) = f.registers := by
      refine List.filter_eq_self.2 fun r hr => ?_
      exact decide_eq_true ((hused r.domain).2 ⟨r, hr, rfl⟩)
    rw [List.flatMap_map]
    exact (perm_flatMap_filter (nodup_firstUses _) f.registers).trans (List.Perm.of_eq hall)

/-! ### The text of a fragment -/

/-- The line that declares a register. Only a register of more than one bit has a range, which ends
at one less than the width. -/
inductive Declares (r : Register) : String → Prop where
  | single (h : r.width.toNat ≤ 1) : Declares r ("reg " ++ r.name ++ ";\n")
  | range (top : Nat) (h : 1 < r.width.toNat) (htop : top + 1 = r.width.toNat) :
      Declares r ("reg [" ++ toString top ++ ":0] " ++ r.name ++ ";\n")

theorem declares_declaration (r : Register) : Declares r r.declaration := by
  rw [Register.declaration]
  split
  next h =>
    have hwide : 1 < r.width.toNat := UInt32.lt_iff_toNat_lt.1 h
    exact .range _ hwide (by omega)
  next h =>
    have hnarrow : ¬ 1 < r.width.toNat := fun hlt => h (UInt32.lt_iff_toNat_lt.2 hlt)
    exact .single (by omega)

/-- **The text of a fragment.** Every register is declared, and loaded once, in the block of its
domain; every assignment and every directive follows, each once and in its order. -/
theorem verilog_divides (f : Fragment) :
    ∃ (declarations : List String) (blocks : List (String × List Register)),
      f.verilog =
        String.join declarations ++
        String.join (blocks.map fun b => "always @(posedge " ++ b.1 ++ "_clk) begin\n" ++
          String.join (b.2.map fun r => "\t" ++ r.name ++ " <= " ++ r.next ++ ";\n") ++ "end\n") ++
        String.join (f.assigns.map fun a => "assign " ++ a.1 ++ " = " ++ a.2 ++ ";\n") ++
        String.join (f.directives.map fun d => "// synthesis " ++ d ++ "\n") ∧
      List.Forall₂ Declares f.registers declarations ∧ Divides f.registers blocks := by
  refine ⟨f.registers.map Register.declaration,
    f.domains.map fun d => (d, f.registers.filter fun r => r.domain == d), ?_, ?_,
    divides_domains f⟩
  · rw [List.map_map]
    rfl
  · rw [List.forall₂_map_right_iff, List.forall₂_same]
    exact fun r _ => declares_declaration r

/-- Two domains whose registers alternate. -/
example : (⟨[⟨"a", 4, "tx", "d"⟩, ⟨"b", 0, "rx", "a"⟩, ⟨"a", 1, "tx", "b"⟩], [("q", "b")], []⟩ :
    Fragment).verilog = "reg [3:0] a;\nreg b;\nreg a;\n" ++
      "always @(posedge tx_clk) begin\n\ta <= d;\n\ta <= b;\nend\n" ++
      "always @(posedge rx_clk) begin\n\tb <= a;\nend\n" ++ "assign q = b;\n" := by
  decide

end FpgaFlow.Fragment
