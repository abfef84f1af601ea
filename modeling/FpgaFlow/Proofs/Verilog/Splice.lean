import FpgaFlow.Manifest
import FpgaFlow.Proofs.Text.Occurrence
import Mathlib.Order.Bounds.Basic
import Mathlib.Order.WellFounded

/-!
# Where items are spliced into a text

The words `module top` stand alone where no character of an identifier is directly before
or after them (`StandsAlone`).  Items go in front of the first `endmodule` behind the
first such place (`Opening`); a text has an opening, and only one, if there is an
`endmodule` behind any such place (`exists_opening_iff`).

* `splice?_eq_none_iff`, `splice?_of_opening`: a text without opening is not spliced, and
  one with an opening is cut there and nothing of it is changed.
* `Text.isValid_of_occursAt`: all offsets of the two searches are between characters.

**Main statement** (`verilog_conserves`): what a design answers when it is asked for its
Verilog text, for every text of its artifact.
-/

namespace FpgaFlow

namespace Verilog

/-! ### Standing alone -/

/-- No character of an identifier ends `before` or begins `after`. -/
def Apart (before after : List Char) : Prop :=
  before.getLast?.any isIdent = false ∧ goesOn after = false

/-- The words `module top` stand at a byte offset of a text, with no character of an
identifier directly before or after them. -/
def StandsAlone (t : String) (i : Nat) : Prop :=
  ∃ a b : String, t = a ++ "module top" ++ b ∧ a.utf8ByteSize = i ∧ Apart a.toList b.toList

/-- The first place `i` where `module top` stands alone, and the first `endmodule` from the
end of these words on. -/
structure Opening (t : String) (i e : Nat) : Prop where
  top : IsLeast {i | StandsAlone t i} i
  closing : IsLeast {j | i + "module top".utf8ByteSize ≤ j ∧ Text.OccursAt "endmodule" t j} e

theorem Opening.unique {t : String} {i e i' e' : Nat} (h : Opening t i e) (h' : Opening t i' e') :
    i = i' ∧ e = e' := by
  obtain rfl := h.top.unique h'.top
  exact ⟨rfl, h.closing.unique h'.closing⟩

/-- There is an opening if there is an `endmodule` behind any of the places. -/
theorem exists_opening_iff {t : String} : (∃ i e, Opening t i e) ↔
    ∃ i j, StandsAlone t i ∧ i + "module top".utf8ByteSize ≤ j ∧ Text.OccursAt "endmodule" t j := by
  constructor
  · rintro ⟨i, e, h⟩
    exact ⟨i, e, h.top.1, h.closing.1⟩
  · rintro ⟨i, j, hi, hj, hword⟩
    obtain ⟨first, hfirst⟩ : ∃ first, IsLeast {i | StandsAlone t i} first :=
      ⟨_, WellFounded.min_mem Nat.lt_wfRel.wf _ ⟨i, hi⟩, fun k hk =>
        not_lt.1 (WellFounded.not_lt_min Nat.lt_wfRel.wf _ hk)⟩
    have hbehind : j ∈ {j | first + "module top".utf8ByteSize ≤ j ∧
        Text.OccursAt "endmodule" t j} := ⟨by have := hfirst.2 hi; omega, hword⟩
    exact ⟨first, _, hfirst, WellFounded.min_mem Nat.lt_wfRel.wf _ ⟨j, hbehind⟩, fun k hk =>
      not_lt.1 (WellFounded.not_lt_min Nat.lt_wfRel.wf _ hk)⟩

/-! ### The first place -/

theorem cutAfterTop_cons (joined : Bool) (c : Char) (cs : List Char) :
    cutAfterTop joined (c :: cs) =
      if "module top".toList <+: c :: cs ∧ joined = false ∧
          goesOn ((c :: cs).drop "module top".toList.length) = false then
        some ("module top".toList, (c :: cs).drop "module top".toList.length)
      else (cutAfterTop (isIdent c) cs).map fun (before, after) => (c :: before, after) := by
  simp only [cutAfterTop, Bool.and_eq_true, Bool.not_eq_true', List.isPrefixOf_iff_prefix,
    and_assoc]

/-- What is cut off ends with the words standing alone. -/
theorem eq_of_cutAfterTop {p s before after : List Char}
    (h : cutAfterTop (p.getLast?.any isIdent) s = some (before, after)) :
    ∃ a, before = a ++ "module top".toList ∧ s = a ++ ("module top".toList ++ after) ∧
      Apart (p ++ a) after := by
  induction s generalizing p before after with
  | nil => cases h
  | cons c cs ih =>
    rw [cutAfterTop_cons] at h
    split at h
    next hw =>
      obtain ⟨⟨b, hb⟩, hp, hgoes⟩ := hw
      obtain ⟨rfl, rfl⟩ := Prod.mk.inj (Option.some.inj h)
      rw [← hb, List.drop_left] at hgoes ⊢
      exact ⟨[], rfl, rfl, by rwa [List.append_nil], hgoes⟩
    · obtain ⟨⟨before', after'⟩, hcut, heq⟩ := Option.map_eq_some_iff.1 h
      obtain ⟨rfl, rfl⟩ := Prod.mk.inj heq
      have hlast : isIdent c = (p ++ [c]).getLast?.any isIdent := by simp
      rw [hlast] at hcut
      obtain ⟨a, rfl, rfl, hapart⟩ := ih hcut
      exact ⟨c :: a, rfl, rfl, by simpa using hapart⟩

/-- Where the words stand alone in a text, the text is cut there or before. -/
theorem exists_cutAfterTop {p s a b : List Char} (hs : s = a ++ ("module top".toList ++ b))
    (hapart : Apart (p ++ a) b) : ∃ x after,
      cutAfterTop (p.getLast?.any isIdent) s = some (x ++ "module top".toList, after) ∧
        x.length ≤ a.length := by
  induction s generalizing p a with
  | nil => simp at hs
  | cons c cs ih =>
    rw [cutAfterTop_cons]
    by_cases hw : "module top".toList <+: c :: cs ∧ (p.getLast?.any isIdent) = false ∧
        goesOn ((c :: cs).drop "module top".toList.length) = false
    · exact ⟨[], _, if_pos hw, Nat.zero_le _⟩
    · rw [if_neg hw]
      cases a with
      | nil =>
        rw [List.nil_append] at hs
        rw [List.append_nil] at hapart
        exact absurd ⟨⟨b, hs.symm⟩, hapart.1, by rw [hs, List.drop_left]; exact hapart.2⟩ hw
      | cons d ds =>
        obtain ⟨rfl, hcs⟩ := List.cons.inj hs
        obtain ⟨x, after, hcut, hle⟩ := ih (p := p ++ [c]) hcs (by simpa using hapart)
        have hlast : (p ++ [c]).getLast?.any isIdent = isIdent c := by simp
        rw [hlast] at hcut
        exact ⟨c :: x, after, by rw [hcut]; rfl, Nat.succ_le_succ hle⟩

/-- What is cut off ends with the first place where the words stand alone. -/
theorem isLeast_of_cutAfterTop {t : String} {before after : List Char}
    (h : cutAfterTop false t.toList = some (before, after)) :
    t = String.ofList before ++ String.ofList after ∧ ∃ i, IsLeast {i | StandsAlone t i} i ∧
      i + "module top".utf8ByteSize = (String.ofList before).utf8ByteSize := by
  obtain ⟨a, rfl, hs, hapart⟩ := eq_of_cutAfterTop (p := []) h
  have ht : t = String.ofList a ++ "module top" ++ String.ofList after :=
    Text.eq_around_iff.2 (by simpa only [String.toList_ofList] using hs)
  rw [String.ofList_append, String.ofList_toList, String.utf8ByteSize_append]
  refine ⟨ht, _, ⟨⟨_, _, ht, rfl, by simpa using hapart⟩, ?_⟩, rfl⟩
  rintro i ⟨u, v, huv, rfl, huvapart⟩
  have hlist := Text.eq_around_iff.1 huv
  obtain ⟨x, after', hcut, hle⟩ := exists_cutAfterTop (p := []) hlist huvapart
  obtain ⟨hx, -⟩ := Prod.mk.inj (Option.some.inj (h.symm.trans hcut))
  obtain rfl := List.append_cancel_right hx
  have hsize := Text.utf8ByteSize_le_of_length_le (hs.symm.trans hlist) hle
  rwa [String.ofList_toList] at hsize

/-- The words stand alone somewhere in a text if it is cut. -/
theorem exists_standsAlone_iff {t : String} :
    (∃ i, StandsAlone t i) ↔ (cutAfterTop false t.toList).isSome := by
  constructor
  · rintro ⟨_, a, b, hab, -, hapart⟩
    obtain ⟨x, after, hcut, -⟩ := exists_cutAfterTop (p := []) (Text.eq_around_iff.1 hab) hapart
    exact Option.isSome_iff_exists.2 ⟨_, hcut⟩
  · intro h
    obtain ⟨_, hcut⟩ := Option.isSome_iff_exists.1 h
    obtain ⟨-, i, hi, -⟩ := isLeast_of_cutAfterTop hcut
    exact ⟨i, hi.1⟩

instance (t : String) : Decidable (∃ i, StandsAlone t i) :=
  decidable_of_iff _ exists_standsAlone_iff.symm

/-! ### The two cuts -/

/-- A text that is cut has an opening where it is cut. -/
theorem opening_of_cutAtTopEnd {t : String} {x y : List Char}
    (h : cutAtTopEnd t.toList = some (x, y)) :
    t = String.ofList x ++ String.ofList y ∧ ∃ i, Opening t i (String.ofList x).utf8ByteSize := by
  obtain ⟨⟨before, after⟩, hcut, h⟩ := Option.bind_eq_some_iff.1 h
  obtain ⟨⟨body, rest⟩, hend, h⟩ := Option.bind_eq_some_iff.1 h
  obtain ⟨rfl, rfl⟩ := Prod.mk.inj (Option.some.inj h)
  obtain ⟨ht, i, htop, hi⟩ := isLeast_of_cutAfterTop hcut
  have hword : "endmodule" ≠ "" := by decide
  rw [← String.toList_ofList (l := after)] at hend
  have hclosing := Text.isLeast_of_cutAt (p := String.ofList before) hword hend
  rw [String.toList_ofList (l := after)] at hend
  rw [← ht, ← hi, ← String.ofList_append] at hclosing
  refine ⟨?_, i, htop, hclosing⟩
  rw [ht, Text.cutAt_append hend]
  simp only [String.ofList_append, String.append_assoc]

/-- A text with an opening is cut. -/
theorem cutAtTopEnd_isSome {t : String} {i e : Nat} (h : Opening t i e) :
    (cutAtTopEnd t.toList).isSome := by
  obtain ⟨a, b, hab, rfl, hapart⟩ := h.top.1
  obtain ⟨x, after, hcut, -⟩ := exists_cutAfterTop (p := []) (Text.eq_around_iff.1 hab) hapart
  obtain ⟨ht, i, htop, hi⟩ := isLeast_of_cutAfterTop hcut
  obtain rfl := htop.unique h.top
  obtain ⟨hj, hword⟩ := h.closing.1
  obtain ⟨u, v, huv, rfl⟩ := (Text.occursAt_iff (by decide)).1 hword
  rw [hi] at hj
  rw [String.append_assoc] at huv
  obtain ⟨m, -, hm⟩ := Text.exists_append_of_le (ht.symm.trans huv) hj
  have hinfix : "endmodule".toList <:+: after := by
    refine ⟨m.toList, v.toList, ?_⟩
    rw [← String.toList_ofList (l := after), hm, String.toList_append, String.toList_append,
      List.append_assoc]
  cases hend : Text.cutAt "endmodule".toList after with
  | none => exact absurd hinfix (Text.cutAt_eq_none_iff.1 hend)
  | some parts =>
    change cutAfterTop false t.toList = _ at hcut
    simp only [cutAtTopEnd, hcut, hend, Option.bind_eq_bind, Option.bind_some]
    rfl

/-- **A text without an opening is not spliced.** -/
theorem splice?_eq_none_iff (items : String) {t : String} :
    splice? items t = none ↔ ¬ ∃ i e, Opening t i e := by
  rw [splice?, Option.map_eq_none_iff]
  constructor
  · rintro hnone ⟨i, e, h⟩
    have hsome := cutAtTopEnd_isSome h
    rw [hnone] at hsome
    cases hsome
  · intro h
    cases hcut : cutAtTopEnd t.toList with
    | none => rfl
    | some parts =>
      obtain ⟨-, i, hi⟩ := opening_of_cutAtTopEnd hcut
      exact absurd ⟨i, _, hi⟩ h

/-- **A text with an opening is spliced there, and all of it is kept.** -/
theorem splice?_of_opening (items : String) {t : String} {i e : Nat} (h : Opening t i e) :
    ∃ a b : String, t = a ++ b ∧ a.utf8ByteSize = e ∧ splice? items t = some (a ++ items ++ b) := by
  obtain ⟨⟨x, y⟩, hcut⟩ := Option.isSome_iff_exists.1 (cutAtTopEnd_isSome h)
  obtain ⟨ht, j, hopening⟩ := opening_of_cutAtTopEnd hcut
  refine ⟨_, _, ht, (hopening.unique h).2, ?_⟩
  rw [splice?, hcut, Option.map_some]
  simp only [String.ofList_append, String.ofList_toList]

end Verilog

namespace PrecompiledDesign

open Verilog

variable {d : PrecompiledDesign} {table : LoweringTable} {v : View} {file : Path} {t : String}

theorem verilog_eq (table : LoweringTable) (hfile : d.manifest.design.verilog = some file)
    (hread : v.readText (Path.absolutize d.root file) = .ok t) :
    d.verilog table v =
      if d.manifest.primitives.isEmpty then .ok (d.generated t)
      else match splice? (items table d.manifest.primitives) t with
        | some spliced => .ok (d.generated spliced)
        | none => .error (Failure.of (.noTopModule (Path.absolutize d.root file))) := by
  rw [verilog, hfile]
  simp only [hread]
  rfl

/-- What a design answers when `t` is the text of its artifact. -/
structure Conserves (d : PrecompiledDesign) (table : LoweringTable) (v : View) (t : String) :
    Prop where
  /-- Without primitives the text is passed on. -/
  plain : d.manifest.primitives = [] → d.verilog table v = .ok (d.generated t)
  /-- With primitives the design fails exactly if no `endmodule` is behind a `module top` that
  stands alone. -/
  fails_iff : d.manifest.primitives ≠ [] → ((∃ f, d.verilog table v = .error f) ↔
    ¬ ∃ i j, StandsAlone t i ∧ i + "module top".utf8ByteSize ≤ j ∧ Text.OccursAt "endmodule" t j)
  /-- Otherwise the lowered primitives stand, in their order, in front of the first `endmodule`
  behind the first such place, and the text is kept before and after them. -/
  spliced : d.manifest.primitives ≠ [] → ∀ r, d.verilog table v = .ok r →
    ∃ i e a b, Opening t i e ∧ t = a ++ b ∧ a.utf8ByteSize = e ∧
      r = d.generated (a ++
        String.join (d.manifest.primitives.map fun p => (table.lower p).verilog) ++ b)
  /-- Wherever one of the two words stands, it begins and ends between characters. -/
  isValid : ∀ word ∈ ["module top", "endmodule"], ∀ i, Text.OccursAt word t i →
    String.Pos.Raw.IsValid t ⟨i⟩ ∧ String.Pos.Raw.IsValid t ⟨i + word.utf8ByteSize⟩

/-- **Splicing conserves the text, and is total.** -/
theorem verilog_conserves (hfile : d.manifest.design.verilog = some file)
    (hread : v.readText (Path.absolutize d.root file) = .ok t) : Conserves d table v t := by
  have hverilog := verilog_eq table hfile hread
  constructor
  case plain =>
    intro hnil
    rw [hverilog, hnil]
    rfl
  case fails_iff =>
    intro hne
    rw [hverilog, if_neg (by simpa using hne), ← exists_opening_iff]
    cases hsplice : splice? (items table d.manifest.primitives) t with
    | none => exact iff_of_true ⟨_, rfl⟩ ((splice?_eq_none_iff _).1 hsplice)
    | some text =>
      have hopening : ¬ ¬ ∃ i e, Opening t i e := by
        rw [← splice?_eq_none_iff (items table d.manifest.primitives), hsplice]
        exact Option.some_ne_none text
      exact iff_of_false (by rintro ⟨f, hf⟩; cases hf) hopening
  case spliced =>
    intro hne r hr
    rw [hverilog, if_neg (by simpa using hne)] at hr
    by_cases hopening : ∃ i e, Opening t i e
    · obtain ⟨i, e, h⟩ := hopening
      obtain ⟨a, b, ht, ha, hsplice⟩ := splice?_of_opening (items table d.manifest.primitives) h
      rw [hsplice] at hr
      exact ⟨i, e, a, b, h, ht, ha, (Except.ok.inj hr).symm⟩
    · rw [(splice?_eq_none_iff _).2 hopening] at hr
      cases hr
  case isValid =>
    intro word hword i hi
    refine Text.isValid_of_occursAt ?_ hi
    rintro rfl
    revert hword
    decide

/-- A text with longer identifiers and with characters of several bytes. -/
def accentedText : String :=
  "// étage\nmodule topé;\nmodule top_é; endmodule\nmodule top\n(input é);endmodule\n"

def accentedDesign : PrecompiledDesign where
  manifest := {
    design := ⟨⟨"xc6slx9"⟩, some ⟨"top.v"⟩, none, [], []⟩
    signals := []
    clocks := []
    commands := []
    primitives := [.noRetiming "état", .multiReg "a" "b" "clk" 2 1]
    synthesizer := none }
  root := ⟨"/p"⟩

def accentedView : View :=
  ⟨FileTree.empty.plant ["p", "top.v"] (.file (.text accentedText) false), []⟩

theorem conserves_accentedDesign :
    accentedDesign.manifest.design.verilog = some ⟨"top.v"⟩ ∧
      accentedView.readText (Path.absolutize ⟨"/p"⟩ ⟨"top.v"⟩) = .ok accentedText ∧
      (accentedDesign.verilog .xilinx accentedView).isOk = true ∧
      Conserves accentedDesign .xilinx accentedView accentedText := by
  have hread : accentedView.readText (Path.absolutize ⟨"/p"⟩ ⟨"top.v"⟩) = .ok accentedText := by
    rfl
  exact ⟨rfl, hread, by decide +kernel, verilog_conserves rfl hread⟩

end PrecompiledDesign

end FpgaFlow
