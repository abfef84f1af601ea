import FpgaFlow.Proofs.Verilog.Splice

/-!
# Splicing twice

A text into which items were spliced can be spliced again.  `Fragment.fenced_verilog`: the
items of a fragment begin and end with characters that `endmodule` does not have, so
the word does not stand across the seams between them and the text around them.
`cutAtTopEnd_spliced`: if it does not stand in the items either, the text is cut in the
same place as before, behind the items.

**Main statement** (`splicing_composes`): splicing two lists of primitives one after the
other is splicing them together.
-/

namespace FpgaFlow

/-- The word that ends a module. -/
def Verilog.closingWord : List Char := "endmodule".toList

/-! ### What a fragment begins and ends with -/

namespace Fragment

open Text (Fenced)
open Verilog (closingWord)

theorem fenced_between {a b s : String} (m : String) (hs : s = a ++ (m ++ b))
    (ha : ∃ c, a.toList.head? = some c ∧ c ∉ closingWord)
    (hb : ∃ c, b.toList.getLast? = some c ∧ c ∉ closingWord) : Fenced closingWord s.toList := by
  obtain ⟨c, hhead, hc⟩ := ha
  obtain ⟨d, hlast, hd⟩ := hb
  rw [hs, String.toList_append, String.toList_append]
  constructor
  · intro e he
    rw [List.head?_append, hhead] at he
    obtain rfl : c = e := Option.some.inj he
    exact hc
  · intro e he
    rw [List.getLast?_append, List.getLast?_append, hlast] at he
    obtain rfl : d = e := Option.some.inj he
    exact hd

theorem fenced_join {pieces : List String} (h : ∀ p ∈ pieces, Fenced closingWord p.toList) :
    Fenced closingWord (String.join pieces).toList := by
  rw [String.toList_join, List.flatMap_def]
  refine Fenced.flatten fun p hp => ?_
  obtain ⟨s, hs, rfl⟩ := List.mem_map.1 hp
  exact h s hs

theorem fenced_declaration (r : Register) : Fenced closingWord r.declaration.toList := by
  by_cases hwidth : 1 < r.width
  · have hline : r.declaration =
        "reg [" ++ (toString (r.width.toNat - 1) ++ ":0] " ++ r.name ++ ";\n") := by
      unfold Register.declaration
      rw [if_pos hwidth]
      simp only [String.append_assoc]
    exact fenced_between _ hline ⟨'r', rfl, by decide⟩ ⟨'\n', rfl, by decide⟩
  · have hline : r.declaration = "reg " ++ (r.name ++ ";\n") := by
      unfold Register.declaration
      rw [if_neg hwidth, String.append_assoc]
    exact fenced_between _ hline ⟨'r', rfl, by decide⟩ ⟨'\n', rfl, by decide⟩

theorem fenced_block (registers : List Register) (domain : String) :
    Fenced closingWord (block registers domain).toList := by
  unfold block
  generalize String.join ((registers.filter fun r => r.domain == domain).map Register.load) = loads
  have hlines : "always @(posedge " ++ domain ++ "_clk) begin\n" ++ loads ++ "end\n" =
      "always @(posedge " ++ (domain ++ "_clk) begin\n" ++ loads ++ "end\n") := by
    simp only [String.append_assoc]
  exact fenced_between _ hlines ⟨'a', rfl, by decide⟩ ⟨'\n', rfl, by decide⟩

theorem fenced_assignLine (target expression : String) :
    Fenced closingWord (assignLine target expression).toList := by
  refine fenced_between (a := "assign ") (b := ";\n") (target ++ " = " ++ expression) ?_
    ⟨'a', rfl, by decide⟩ ⟨'\n', rfl, by decide⟩
  unfold assignLine
  simp only [String.append_assoc]

theorem fenced_directiveLine (directive : String) :
    Fenced closingWord (directiveLine directive).toList := by
  refine fenced_between (a := "// synthesis ") (b := "\n") directive ?_
    ⟨'/', rfl, by decide⟩ ⟨'\n', rfl, by decide⟩
  unfold directiveLine
  rw [String.append_assoc]

/-- **No `endmodule` stands across an end of a fragment.** -/
theorem fenced_verilog (f : Fragment) : Fenced closingWord f.verilog.toList := by
  rw [verilog, String.toList_append, String.toList_append, String.toList_append]
  refine (((fenced_join ?_).append (fenced_join ?_)).append (fenced_join ?_)).append
    (fenced_join ?_)
  · intro p hp
    obtain ⟨r, -, rfl⟩ := List.mem_map.1 hp
    exact fenced_declaration r
  · intro p hp
    obtain ⟨domain, -, rfl⟩ := List.mem_map.1 hp
    exact fenced_block f.registers domain
  · intro p hp
    obtain ⟨⟨target, expression⟩, -, rfl⟩ := List.mem_map.1 hp
    exact fenced_assignLine target expression
  · intro p hp
    obtain ⟨directive, -, rfl⟩ := List.mem_map.1 hp
    exact fenced_directiveLine directive

end Fragment

/-! ### The second cut -/

namespace Verilog

open Text (Fenced)

variable {s x y items : List Char}

/-- A text that is longer than a word shows whether the word begins it, and what goes on
behind the word. -/
theorem begins_append_iff {word u v : List Char} (h : word.length < u.length) :
    word <+: u ++ v ∧ goesOn ((u ++ v).drop word.length) = false ↔
      word <+: u ∧ goesOn (u.drop word.length) = false := by
  have hbegins : word <+: u ++ v ↔ word <+: u :=
    ⟨fun hw => List.prefix_of_prefix_length_le hw (List.prefix_append u v) h.le,
      fun hw => hw.trans (List.prefix_append u v)⟩
  obtain ⟨c, cs, hdrop⟩ := List.exists_cons_of_ne_nil (l := u.drop word.length)
    (by rw [ne_eq, List.drop_eq_nil_iff]; omega)
  rw [hbegins, List.drop_append_of_le_length h.le, hdrop]
  exact Iff.rfl

/-- What is behind the words `module top` is not looked at, but for the character directly
behind them. -/
theorem cutAfterTop_append {p s before after z : List Char}
    (h : cutAfterTop (p.getLast?.any isIdent) s = some (before, after)) (hz : goesOn z = false) :
    cutAfterTop (p.getLast?.any isIdent) (before ++ z) = some (before, z) := by
  induction s generalizing p before after with
  | nil => cases h
  | cons c cs ih =>
    rw [cutAfterTop_cons] at h
    split at h
    next hw =>
      obtain ⟨rfl, -⟩ := Prod.mk.inj (Option.some.inj h)
      have hword : "module top".toList ++ z = 'm' :: ("odule top".toList ++ z) := rfl
      have hdrop : ("module top".toList ++ z).drop "module top".toList.length = z :=
        List.drop_left
      rw [hword, cutAfterTop_cons, ← hword, hdrop,
        if_pos ⟨List.prefix_append _ z, hw.2.1, hz⟩]
    next hw =>
      obtain ⟨⟨before', after'⟩, hcut, heq⟩ := Option.map_eq_some_iff.1 h
      obtain ⟨rfl, rfl⟩ := Prod.mk.inj heq
      have hlast : isIdent c = (p ++ [c]).getLast?.any isIdent := by simp
      rw [hlast] at hcut
      obtain ⟨a, rfl, rfl, -⟩ := eq_of_cutAfterTop hcut
      have hlong : "module top".toList.length < (c :: (a ++ "module top".toList)).length := by
        rw [List.length_cons, List.length_append]
        omega
      have hnot : ¬ ("module top".toList <+: c :: (a ++ "module top".toList ++ z) ∧
          (p.getLast?.any isIdent) = false ∧ goesOn ((c :: (a ++ "module top".toList ++ z)).drop
            "module top".toList.length) = false) := by
        rintro ⟨hword, hp, hgoes⟩
        obtain ⟨hword', hgoes'⟩ := (begins_append_iff (v := after') hlong).2
          ((begins_append_iff (v := z) hlong).1 ⟨hword, hgoes⟩)
        rw [List.cons_append, List.append_assoc] at hword' hgoes'
        exact hw ⟨hword', hp, hgoes'⟩
      rw [List.cons_append, cutAfterTop_cons, if_neg hnot, hlast, ih hcut]
      rfl

theorem cutAtTopEnd_eq_some_iff : cutAtTopEnd s = some (x, y) ↔
    ∃ before body rest, cutAfterTop false s = some (before, body ++ (closingWord ++ rest)) ∧
      Text.cutAt closingWord (body ++ (closingWord ++ rest)) = some (body, rest) ∧
      x = before ++ body ∧ y = closingWord ++ rest := by
  constructor
  · intro h
    obtain ⟨⟨before, after⟩, htop, h⟩ := Option.bind_eq_some_iff.1 h
    obtain ⟨⟨body, rest⟩, hend, h⟩ := Option.bind_eq_some_iff.1 h
    obtain ⟨rfl, rfl⟩ := Prod.mk.inj (Option.some.inj h)
    change Text.cutAt closingWord after = _ at hend
    have hafter := Text.cutAt_append hend
    exact ⟨before, body, rest, hafter ▸ htop, hafter ▸ hend, rfl, rfl⟩
  · rintro ⟨before, body, rest, htop, hend, rfl, rfl⟩
    refine Option.bind_eq_some_iff.2 ⟨_, htop, ?_⟩
    change (Text.cutAt closingWord _).bind _ = _
    rw [hend]
    rfl

variable {before body rest : List Char}

/-- The first `module top` is the same whatever follows what stands between it and the
`endmodule`. -/
theorem cutAfterTop_spliced
    (htop : cutAfterTop false s = some (before, body ++ (closingWord ++ rest))) (z : List Char) :
    cutAfterTop false (before ++ (body ++ z)) = some (before, body ++ z) := by
  obtain ⟨-, -, -, -, hgoes⟩ := eq_of_cutAfterTop (p := []) htop
  cases body with
  | nil =>
    -- `endmodule` begins with a character of an identifier, so something is in front of it.
    exact absurd hgoes (by decide : ¬ isIdent 'e' = false)
  | cons b bs => exact cutAfterTop_append (p := []) htop hgoes

/-- The first `endmodule` is the same, with the items in front of it. -/
theorem cutAt_spliced
    (hend : Text.cutAt closingWord (body ++ (closingWord ++ rest)) = some (body, rest))
    (hfenced : Fenced closingWord items) (hfree : ¬ closingWord <:+: items) :
    Text.cutAt closingWord (body ++ (items ++ (closingWord ++ rest))) =
      some (body ++ items, rest) := by
  have hword : closingWord ≠ [] := by decide
  by_cases hne : items = []
  · rw [hne, List.nil_append, List.append_nil]
    exact hend
  · rw [hfenced.cutAt_append hne (Text.not_infix_of_cutAt hword hend) hfree,
      Text.cutAt_append_self hword]
    simp only [Option.map_some, List.append_nil]

/-- **A text with items in it is cut behind them.** -/
theorem cutAtTopEnd_spliced (hcut : cutAtTopEnd s = some (x, y))
    (hfenced : Fenced closingWord items) (hfree : ¬ closingWord <:+: items) :
    cutAtTopEnd (x ++ (items ++ y)) = some (x ++ items, y) := by
  obtain ⟨before, body, rest, htop, hend, rfl, rfl⟩ := cutAtTopEnd_eq_some_iff.1 hcut
  have htop' := cutAfterTop_spliced htop (items ++ (closingWord ++ rest))
  have hend' := cutAt_spliced hend hfenced hfree
  refine cutAtTopEnd_eq_some_iff.2 ⟨before, body ++ items, rest, ?_, ?_, ?_, rfl⟩
  · simpa only [List.append_assoc] using htop'
  · simpa only [List.append_assoc] using hend'
  · rw [List.append_assoc]

/-- The opening of a text with items in it begins where it began, and ends later by the
length of the items. -/
theorem Opening.spliced {t items : String} {i e : Nat} {x y : List Char} (h : Opening t i e)
    (hcut : cutAtTopEnd t.toList = some (x, y)) (hfenced : Fenced closingWord items.toList)
    (hfree : ¬ closingWord <:+: items.toList) :
    Opening (String.ofList (x ++ (items.toList ++ y))) i (e + items.utf8ByteSize) := by
  have hcut' := cutAtTopEnd_spliced hcut hfenced hfree
  obtain ⟨before, body, rest, htop, -, rfl, rfl⟩ := cutAtTopEnd_eq_some_iff.1 hcut
  have htop' := cutAfterTop_spliced htop (items.toList ++ (closingWord ++ rest))
  rw [← List.append_assoc] at htop'
  rw [← String.toList_ofList (l := before ++ body ++ (items.toList ++ (closingWord ++ rest)))]
    at hcut' htop'
  obtain ⟨-, i₁, hleast, hsize⟩ := isLeast_of_cutAfterTop htop
  obtain ⟨-, i₂, hleast', hsize'⟩ := isLeast_of_cutAfterTop htop'
  obtain ⟨-, j, hj⟩ := opening_of_cutAtTopEnd hcut
  obtain ⟨-, j', hj'⟩ := opening_of_cutAtTopEnd hcut'
  obtain ⟨rfl, rfl⟩ := h.unique hj
  obtain rfl := hleast.unique h.top
  obtain rfl := hleast'.unique hj'.top
  obtain rfl : i₂ = i₁ := by omega
  have hlength : (String.ofList (before ++ body ++ items.toList)).utf8ByteSize =
      (String.ofList (before ++ body)).utf8ByteSize + items.utf8ByteSize := by
    rw [String.ofList_append, String.utf8ByteSize_append, String.ofList_toList]
  rw [hlength] at hj'
  exact hj'

end Verilog

/-! ### Designs that differ in their primitives -/

namespace PrecompiledDesign

open Verilog

variable {d : PrecompiledDesign} {table : LoweringTable} {v : View} {file : Path} {t : String}

/-- The design with other primitives. -/
def withPrimitives (d : PrecompiledDesign) (primitives : List Primitive) : PrecompiledDesign :=
  { d with manifest := { d.manifest with primitives := primitives } }

@[simp] theorem withPrimitives_primitives (d : PrecompiledDesign) (ps : List Primitive) :
    (d.withPrimitives ps).manifest.primitives = ps :=
  rfl

theorem items_append (table : LoweringTable) (ps qs : List Primitive) :
    items table (ps ++ qs) = items table ps ++ items table qs := by
  rw [items, List.map_append, String.join_append]
  rfl

theorem toList_items (table : LoweringTable) (ps : List Primitive) : (items table ps).toList =
    (ps.map fun p => (table.lower p).verilog.toList).flatten := by
  rw [items, String.toList_join, List.flatMap_def, List.map_map]
  rfl

theorem fenced_pieces {ps : List Primitive} :
    ∀ piece ∈ ps.map fun p => (table.lower p).verilog.toList,
      Text.Fenced closingWord piece := by
  intro piece hpiece
  obtain ⟨p, -, rfl⟩ := List.mem_map.1 hpiece
  exact (table.lower p).fenced_verilog

theorem fenced_items (table : LoweringTable) (ps : List Primitive) :
    Text.Fenced closingWord (items table ps).toList := by
  rw [toList_items]
  exact Text.Fenced.flatten fenced_pieces

/-- If `endmodule` stands in no fragment, it does not stand across an end of one either. -/
theorem not_infix_items {ps : List Primitive}
    (hfree : ∀ p ∈ ps, ¬ closingWord <:+: (table.lower p).verilog.toList) :
    ¬ closingWord <:+: (items table ps).toList := by
  intro h
  rw [toList_items] at h
  obtain ⟨piece, hpiece, hword⟩ := Text.Fenced.infix_flatten (by decide) fenced_pieces h
  obtain ⟨p, hp, rfl⟩ := List.mem_map.1 hpiece
  exact hfree p hp hword

/-- A design answers with its text cut in two and the items between the halves. -/
theorem verilog_of_cutAtTopEnd {x y : List Char} (ps : List Primitive)
    (hfile : d.manifest.design.verilog = some file)
    (hread : v.readText (Path.absolutize d.root file) = .ok t)
    (hcut : cutAtTopEnd t.toList = some (x, y)) :
    (d.withPrimitives ps).verilog table v =
      .ok (d.generated (String.ofList (x ++ ((items table ps).toList ++ y)))) := by
  have hverilog := verilog_eq (d := d.withPrimitives ps) table hfile hread
  rw [hverilog]
  cases ps with
  | nil =>
    have hnil : (items table []).toList = [] := toList_items table []
    have ht : String.ofList (x ++ y) = t := by
      rw [String.ofList_append]
      exact (opening_of_cutAtTopEnd hcut).1.symm
    rw [hnil, List.nil_append, ht]
    rfl
  | cons p ps =>
    have hsplice : splice? (items table (p :: ps)) t =
        some (String.ofList (x ++ ((items table (p :: ps)).toList ++ y))) := by
      rw [splice?, hcut]
      simp only [Option.map_some, List.append_assoc]
    rw [withPrimitives_primitives, if_neg (by simp), hsplice]
    rfl

/-- What splicing `ps` makes of the text `t` of a design, and what can be spliced into it
afterwards. -/
structure Composes (d : PrecompiledDesign) (file : Path) (table : LoweringTable) (v : View)
    (t : String) (ps : List Primitive) (r : Generated) : Prop where
  /-- Splicing `ps` gives `r`. -/
  first : (d.withPrimitives ps).verilog table v = .ok r
  /-- The opening of the new text is the one of the text before, with its end moved by the
  length of the items. -/
  opening : ∀ i e, Opening t i e → Opening r.text i (e + (items table ps).utf8ByteSize)
  /-- Where the new text is the artifact, splicing `qs` does not fail, and gives what `ps`
  and `qs` together give. -/
  second : ∀ w : View, w.readText (Path.absolutize d.root file) = .ok r.text → ∀ qs,
    ∃ r', (d.withPrimitives qs).verilog table w = .ok r' ∧
      (d.withPrimitives (ps ++ qs)).verilog table v = .ok r'

/-- **Splicing composes.** -/
theorem splicing_composes {ps : List Primitive} (hfile : d.manifest.design.verilog = some file)
    (hread : v.readText (Path.absolutize d.root file) = .ok t) (htop : ∃ i e, Opening t i e)
    (hfree : ∀ p ∈ ps, ¬ "endmodule".toList <:+: (table.lower p).verilog.toList) :
    ∃ r, Composes d file table v t ps r := by
  obtain ⟨i, e, hopening⟩ := htop
  obtain ⟨⟨x, y⟩, hcut⟩ := Option.isSome_iff_exists.1 (cutAtTopEnd_isSome hopening)
  have hcut' := cutAtTopEnd_spliced hcut (fenced_items table ps) (not_infix_items hfree)
  rw [← String.toList_ofList (l := x ++ ((items table ps).toList ++ y))] at hcut'
  refine ⟨_, verilog_of_cutAtTopEnd ps hfile hread hcut, ?opening, ?second⟩
  case opening =>
    intro i e hopening
    exact hopening.spliced hcut (fenced_items table ps) (not_infix_items hfree)
  case second =>
    intro w hw qs
    refine ⟨_, verilog_of_cutAtTopEnd qs hfile hw hcut', ?_⟩
    rw [verilog_of_cutAtTopEnd (ps ++ qs) hfile hread hcut, items_append, String.toList_append]
    simp only [List.append_assoc]

/-- A table with items that speak of a `module top` themselves. -/
def speakingTable : LoweringTable :=
  LoweringTable.empty.insert .noRetiming fun _ =>
    { Fragment.empty with directives := ["keep in module top"] }

theorem composes_accentedDesign :
    accentedDesign.manifest.design.verilog = some ⟨"top.v"⟩ ∧
      accentedView.readText (Path.absolutize ⟨"/p"⟩ ⟨"top.v"⟩) = .ok accentedText ∧
      (∃ i e, Opening accentedText i e) ∧
      (∀ p ∈ [Primitive.noRetiming "état"],
        ¬ "endmodule".toList <:+: (speakingTable.lower p).verilog.toList) ∧
      ∃ r, Composes accentedDesign ⟨"top.v"⟩ speakingTable accentedView accentedText
        [.noRetiming "état"] r := by
  have hread : accentedView.readText (Path.absolutize ⟨"/p"⟩ ⟨"top.v"⟩) = .ok accentedText := by
    rfl
  have htop : ∃ i e, Opening accentedText i e := by
    obtain ⟨⟨x, y⟩, hcut⟩ := Option.isSome_iff_exists.1
      (by decide +kernel : (cutAtTopEnd accentedText.toList).isSome = true)
    obtain ⟨-, i, hi⟩ := opening_of_cutAtTopEnd hcut
    exact ⟨i, _, hi⟩
  have hfree : ∀ p ∈ [Primitive.noRetiming "état"],
      ¬ "endmodule".toList <:+: (speakingTable.lower p).verilog.toList := by
    intro p hp
    obtain rfl := List.mem_singleton.1 hp
    exact Text.cutAt_eq_none_iff.1 (by decide +kernel)
  exact ⟨rfl, hread, htop, hfree, splicing_composes rfl hread htop hfree⟩

end PrecompiledDesign

end FpgaFlow
