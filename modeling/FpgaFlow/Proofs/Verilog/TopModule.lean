import FpgaFlow.Proofs.Verilog.Lexeme
import FpgaFlow.Proofs.Verilog.Splice

/-!
# The top module of a text

A text declares a module `top` where the words `module` and `top` follow each other with
nothing but blanks and comments between them; the module ends at the next word `endmodule`
(`TopModule`).  Items belong in front of this word.

The search goes by letters and not by lexemes, and may lead elsewhere (`TopModule.Reached`).
It leads to the word if the declaration is written with one blank, and the letters
`endmodule` stand neither in the body of the module nor between the declaration and
whatever looks like it before: another declaration, the words in a comment or a string, or
an escaped identifier that ends like the first of them (`TopModule.Plain`).

**Main statement** (`splices_topModule`): the primitives of a design are put in front of
the word that closes its top module exactly if the search leads there, and it does so for
a plain module.  Otherwise they may end up in a comment (`misplaced_commentedModule`).
-/

namespace FpgaFlow

namespace Verilog

/-- A word as a lexeme. -/
def word (s : String) : Lexeme :=
  ⟨.word, s.toList⟩

/-- A single blank. -/
def space : Lexeme :=
  ⟨.blank, [' ']⟩

/-- A module `top` that a text declares. -/
structure TopModule (t : String) where
  before : List Lexeme
  gap : List Lexeme
  body : List Lexeme
  after : List Lexeme
  lexemes_eq : lexemes t.toList = before ++ word "module" ::
    (gap ++ word "top" :: (body ++ word "endmodule" :: after))
  gap_spacing : ∀ l ∈ gap, l.kind = .blank ∨ l.kind = .comment
  notMem_body : word "endmodule" ∉ body

namespace TopModule

variable {t : String}

/-- The text up to the word that closes the module. -/
def front (m : TopModule t) : String :=
  String.ofList (textOf (m.before ++ word "module" :: (m.gap ++ word "top" :: m.body)))

/-- The text from the word that closes the module on. -/
def back (m : TopModule t) : String :=
  String.ofList (textOf (word "endmodule" :: m.after))

theorem text_eq (m : TopModule t) : t = m.front ++ m.back := by
  rw [← String.toList_inj, ← text_lexemes t.toList, m.lexemes_eq, front, back]
  simp

/-- The search by letters leads to the word that closes the module. -/
def Reached (m : TopModule t) : Prop :=
  ∃ i, Opening t i m.front.utf8ByteSize

end TopModule

/-- Lexemes that begin with what a search by letters takes for the declaration of a module `top`:
a comment or a string with the words in it, or the words themselves, of which the first may be the
end of an escaped identifier. -/
def Mentions : List Lexeme → Prop
  | [] => False
  | l :: ls =>
    (l.kind = .comment ∨ l.kind = .literal) ∧ (∃ i, StandsAlone (String.ofList l.text) i) ∨
    (l = word "module" ∨ l.kind = .escaped ∧ "module".toList <:+ l.text) ∧
      [space, word "top"] <+: ls

instance : DecidablePred Mentions
  | [] => inferInstanceAs (Decidable False)
  | _ :: _ => inferInstanceAs (Decidable (_ ∨ _))

/-- A module of which a search by letters finds the end. -/
structure TopModule.Plain {t : String} (m : TopModule t) : Prop where
  gap_eq : m.gap = [space]
  before : ∀ ls ∈ m.before.tails, Mentions ls → ∀ l ∈ ls, ¬ "endmodule".toList <:+: l.text
  body : ∀ l ∈ m.body, ¬ "endmodule".toList <:+: l.text

/-! ### Places in lexemes -/

/-- A lexeme that holds a place within the text of some of the lexemes is one of them. -/
theorem exists_eq_of_place {xs ls zs xs' ys' : List Lexeme} {l : Lexeme} {u : List Char}
    (h : xs ++ (ls ++ zs) = xs' ++ l :: ys') (hu : u.length < l.text.length)
    (hle : (textOf xs).length ≤ (textOf xs' ++ u).length)
    (hlt : (textOf xs' ++ u).length < (textOf (xs ++ ls)).length) :
    ∃ as bs, ls = as ++ l :: bs ∧ xs' = xs ++ as ∧ ys' = bs ++ zs := by
  rw [List.length_append] at hle hlt
  obtain ⟨as, rfl, has⟩ : ∃ as, xs' = xs ++ as ∧ ls ++ zs = as ++ l :: ys' := by
    rcases List.append_eq_append_iff.1 h with ⟨as, hxs, has⟩ | ⟨cs, rfl, hcs⟩
    · exact ⟨as, hxs, has⟩
    · cases cs with
      | nil => exact ⟨[], by simp, by simpa using hcs.symm⟩
      | cons c cs =>
        obtain ⟨rfl, -⟩ := List.cons.inj hcs
        simp only [textOf_append, textOf_cons, List.length_append] at hle
        omega
  simp only [textOf_append, List.length_append] at hlt
  rcases List.append_eq_append_iff.1 has with ⟨ds, rfl, -⟩ | ⟨bs, rfl, hbs⟩
  · simp only [textOf_append, List.length_append] at hlt
    omega
  · cases bs with
    | nil =>
      rw [List.append_nil] at hlt
      omega
    | cons d bs =>
      obtain ⟨rfl, hys⟩ := List.cons.inj hbs
      exact ⟨as, bs, rfl, rfl, hys⟩

/-- Lexemes in front of the word `module` do not go on with a blank and `top` behind it. -/
theorem prefix_of_append {ls ms zs : List Lexeme}
    (h : ls ++ word "module" :: zs = space :: word "top" :: ms) : [space, word "top"] <+: ls := by
  match ls, h with
  | [], h => exact absurd (List.cons.inj h).1 (by decide)
  | [_], h => exact absurd (List.cons.inj (List.cons.inj h).2).1 (by decide)
  | a :: b :: ls, h =>
    obtain ⟨rfl, hrest⟩ := List.cons.inj h
    obtain ⟨rfl, -⟩ := List.cons.inj hrest
    exact ⟨ls, rfl⟩

/-- Nothing of a word is before or after what stands alone in it. -/
theorem eq_nil_of_apart {u r w : List Char} (hident : ∀ c ∈ u ++ (r ++ w), isIdent c = true)
    (hapart : Apart u w) : u = [] ∧ w = [] := by
  constructor
  · by_contra hne
    have hlast := hapart.1
    rw [List.getLast?_eq_some_getLast hne, Option.any_some,
      hident _ (List.mem_append_left _ (List.getLast_mem hne))] at hlast
    cases hlast
  · by_contra hne
    have hhead := hapart.2
    rw [goesOn, List.head?_eq_some_head hne, Option.any_some,
      hident _ (by simp [List.head_mem hne])] at hhead
    cases hhead

/-- The lexemes of a blank and a word. -/
theorem lexemes_space_top {s : List Char} (h : goesOn s = false) :
    lexemes (" top".toList ++ s) = space :: word "top" :: lexemes s := by
  have htake : s.takeWhile isIdent = [] := by
    cases s with
    | nil => rfl
    | cons c cs => exact List.takeWhile_cons_of_neg (by simpa [goesOn] using h)
  have hblank : headLexeme ' ' ('t' :: 'o' :: 'p' :: s) = space := rfl
  have htop : headLexeme 't' ('o' :: 'p' :: s) = word "top" := by
    simp [headLexeme, isIdent, htake, word]
  have hfrom (c : Char) (cs : List Char) : lexemesFrom 0 (c :: cs) =
      headLexeme c cs :: lexemesFrom ((headLexeme c cs).text.length - 1) cs := rfl
  calc lexemes (" top".toList ++ s)
      = lexemesFrom 0 (' ' :: 't' :: 'o' :: 'p' :: s) := rfl
    _ = space :: lexemesFrom 0 ('t' :: 'o' :: 'p' :: s) := by rw [hfrom, hblank]; rfl
    _ = space :: word "top" :: lexemes s := by rw [hfrom, htop]; rfl

/-! ### The search by letters -/

theorem isIdent_of_mem_module : ∀ c ∈ "module".toList, isIdent c = true :=
  List.all_eq_true.1 (by decide)

theorem isIdent_of_mem_endmodule : ∀ c ∈ "endmodule".toList, isIdent c = true :=
  List.all_eq_true.1 (by decide)

theorem inWords_of_mem_opening : ∀ c ∈ "module top".toList, inWords c = true :=
  List.all_eq_true.1 (by decide)

/-- Where the words stand alone before the word `module`, the lexemes look like a declaration. -/
theorem exists_mentions {s a b : List Char} {before zs : List Lexeme}
    (h : lexemes s = before ++ word "module" :: zs) (hs : s = a ++ ("module top".toList ++ b))
    (hapart : Apart a b) (hlt : a.length < (textOf before).length) :
    ∃ xs ls, before = xs ++ ls ∧ Mentions ls ∧ (textOf xs).length ≤ a.length := by
  have hrun : s = a ++ ("module".toList ++ (" top".toList ++ b)) := hs
  obtain ⟨xs, l, u, w, rest, hxs, hbegins, rfl, htext, hw⟩ :=
    exists_lexeme_of_run hrun (by decide) isIdent_of_mem_module
  have hsplit : [] ++ (before ++ word "module" :: zs) = xs ++ l :: lexemes rest := h.symm.trans hxs
  obtain ⟨_, ls, rfl, rfl, hls⟩ :=
    exists_eq_of_place hsplit (by simp [htext]) (Nat.zero_le _) hlt
  refine ⟨xs, l :: ls, rfl, ?_, by simp⟩
  have hu : u.getLast?.any isIdent = false := by
    by_cases hnil : u = []
    · rw [hnil]
      rfl
    · rw [← hapart.1, List.getLast?_append_of_ne_nil _ hnil]
  have hblank {c : Char} {cs : List Char} (hcs : w = c :: cs) : c = ' ' := by
    rw [hcs] at hw
    exact (List.cons.inj hw).1.symm
  -- Behind a word or an escaped identifier the lexemes go on with a blank and `top`.
  have hbehind (hnil : w = []) : [space, word "top"] <+: ls := by
    rw [hnil, List.nil_append] at hw
    rw [← hw, lexemes_space_top hapart.2] at hls
    exact prefix_of_append hls.symm
  have htold (hkind : l.kind = .comment ∨ l.kind = .literal) : Mentions (l :: ls) := by
    obtain ⟨w', hwhole, rfl⟩ := (hbegins.closed hkind).exists_of_run htext (by simp)
      inWords_of_mem_opening (show "module".toList ++ w ++ rest = "module top".toList ++ b by
        rw [List.append_assoc, ← hw]
        rfl)
    refine .inl ⟨hkind, _, String.ofList u, String.ofList w', ?_, rfl, by simpa using hu, ?_⟩
    · rw [htext, hwhole]
      simp only [String.ofList_append, String.ofList_toList, String.append_assoc]
    · rw [String.toList_ofList]
      cases w' with
      | nil => rfl
      | cons c cs => exact hapart.2
  have hproper := hbegins.proper
  rw [Lexeme.Proper, htext] at hproper
  cases hkind : l.kind with
  | comment => exact htold (.inl hkind)
  | literal => exact htold (.inr hkind)
  | word =>
    rw [hkind] at hproper
    have hgoes : goesOn w = false := by
      cases w with
      | nil => rfl
      | cons c cs =>
        rw [hblank rfl]
        rfl
    obtain ⟨rfl, rfl⟩ := eq_nil_of_apart hproper ⟨hu, hgoes⟩
    obtain ⟨kind, text⟩ := l
    exact .inr ⟨.inl (by rw [word, Lexeme.mk.injEq]; exact ⟨hkind, by simpa using htext⟩),
      hbehind rfl⟩
  | escaped =>
    rw [hkind] at hproper
    have hnil : w = [] := by
      cases w with
      | nil => rfl
      | cons c cs =>
        have hc := hproper c (by simp)
        rw [hblank rfl] at hc
        exact absurd hc (by decide)
    exact .inr ⟨.inr ⟨hkind, u, by rw [htext, hnil, List.append_nil]⟩, hbehind hnil⟩
  | blank =>
    rw [hkind] at hproper
    exact absurd (hproper 'm' (by simp)) (by decide)
  | symbol =>
    rw [hkind] at hproper
    have hone : (u ++ ("module".toList ++ w)).length = 1 := hproper
    simp at hone
    omega

namespace TopModule

variable {t : String}

/-- The words that begin a module with one blank stand alone. -/
theorem apart_of_gap {m : TopModule t} (hgap : m.gap = [space]) : ∃ r : List Char,
    t.toList = textOf m.before ++ ("module top".toList ++ r) ∧ Apart (textOf m.before) r := by
  have hall : lexemes t.toList = (m.before ++ [word "module", space, word "top"]) ++
      (m.body ++ word "endmodule" :: m.after) := by
    rw [m.lexemes_eq, hgap]
    simp
  obtain ⟨s, -, hlexemes, hbefore⟩ := exists_split m.lexemes_eq
  obtain ⟨r, hr, -, hafter⟩ := exists_split hall
  have hopening : textOf [word "module", space, word "top"] = "module top".toList := rfl
  rw [textOf_append, hopening] at hr hafter
  refine ⟨r, by rw [hr, List.append_assoc], ?_, hafter ?_⟩
  · have hgoes : goesOn s = true := by
      rw [← text_lexemes s, hlexemes]
      rfl
    by_contra hlast
    have hnot : goesOn s = false := hbefore (by simpa using hlast)
    rw [hnot] at hgoes
    cases hgoes
  · rw [List.getLast?_append_of_ne_nil _ (by decide)]
    decide

/-- From where the words stand alone on, a plain module does not hold the letters `endmodule`. -/
theorem Plain.exists_clear {m : TopModule t} (h : m.Plain) {a b : List Char}
    (ht : t.toList = a ++ ("module top".toList ++ b)) (hapart : Apart a b) :
    ∃ xs ls, lexemes t.toList = xs ++ (ls ++ word "endmodule" :: m.after) ∧
      m.front = String.ofList (textOf (xs ++ ls)) ∧
      (textOf xs).length ≤ (a ++ "module top".toList).length ∧
      ∀ l ∈ ls, ¬ "endmodule".toList <:+: l.text := by
  have hopening : ∀ l ∈ [word "module", space, word "top"], ¬ "endmodule".toList <:+: l.text := by
    decide
  by_cases hlt : a.length < (textOf m.before).length
  · obtain ⟨xs, ls, hbefore, hmentions, hle⟩ := exists_mentions m.lexemes_eq ht hapart hlt
    refine ⟨xs, ls ++ ([word "module", space, word "top"] ++ m.body), ?_, ?_, ?_, ?_⟩
    · rw [m.lexemes_eq, h.gap_eq, hbefore]
      simp
    · rw [front, h.gap_eq, hbefore]
      simp
    · rw [List.length_append]
      omega
    · have hls := h.before ls ((List.mem_tails _ _).2 ⟨xs, hbefore.symm⟩) hmentions
      intro l hl
      rcases List.mem_append.1 hl with hl | hl
      · exact hls l hl
      · exact (List.mem_append.1 hl).elim (hopening l) (h.body l)
  · refine ⟨m.before ++ [word "module", space, word "top"], m.body, ?_, ?_, ?_, h.body⟩
    · rw [m.lexemes_eq, h.gap_eq]
      simp
    · rw [front, h.gap_eq]
      simp
    · have hwords : textOf [word "module", space, word "top"] = "module top".toList := rfl
      rw [textOf_append, hwords, List.length_append, List.length_append]
      omega

/-- No search by letters ends before the end of a plain module. -/
theorem Plain.front_le {m : TopModule t} (h : m.Plain) {i e : Nat} (hopening : Opening t i e) :
    m.front.utf8ByteSize ≤ e := by
  obtain ⟨a, b, hab, rfl, hapart⟩ := hopening.top.1
  obtain ⟨hbehind, hword⟩ := hopening.closing.1
  obtain ⟨x, y, hxy, rfl⟩ := (Text.occursAt_iff (by decide)).1 hword
  obtain ⟨c, rfl, -⟩ := Text.exists_append_of_le (hab.symm.trans (hxy.trans String.append_assoc))
    (by rwa [String.utf8ByteSize_append])
  have hclosed := Text.eq_around_iff.1 hxy
  obtain ⟨xs, ls, hls, hfront, hstart, hclear⟩ :=
    h.exists_clear (Text.eq_around_iff.1 hab) hapart
  obtain ⟨xs', l, u, w, rest, hxs', -, hplace, htext, -⟩ :=
    exists_lexeme_of_run hclosed (by decide) isIdent_of_mem_endmodule
  by_contra hlt
  have hshort : (textOf xs' ++ u).length < (textOf (xs ++ ls)).length := by
    rw [← hplace]
    by_contra hlong
    have hwhole : t.toList = textOf (xs ++ ls) ++ textOf (word "endmodule" :: m.after) := by
      rw [← textOf_append, List.append_assoc, ← hls, text_lexemes]
    have hsize := Text.utf8ByteSize_le_of_length_le (hwhole.symm.trans hclosed) (by omega)
    rw [← hfront, String.ofList_toList] at hsize
    exact hlt hsize
  obtain ⟨as, bs, rfl, -, -⟩ := exists_eq_of_place (hls.symm.trans hxs') (by simp [htext])
    (by rw [← hplace]; simp at hstart ⊢; omega) hshort
  exact hclear l (by simp) ⟨u, w, by rw [htext, List.append_assoc]⟩

/-- **The search by letters finds the end of a plain module.** -/
theorem Plain.reached {m : TopModule t} (h : m.Plain) : m.Reached := by
  obtain ⟨r, ht, hapart⟩ := apart_of_gap h.gap_eq
  have htext : t = String.ofList (textOf m.before) ++ "module top" ++ String.ofList r :=
    Text.eq_around_iff.2 (by simpa only [String.toList_ofList] using ht)
  have hown : StandsAlone t (String.ofList (textOf m.before)).utf8ByteSize :=
    ⟨_, _, htext, rfl, by simpa using hapart⟩
  have hfront : m.front =
      String.ofList (textOf m.before) ++ "module top" ++ String.ofList (textOf m.body) := by
    rw [front, h.gap_eq, ← String.toList_inj]
    simp [word, space]
  have hbehind : (String.ofList (textOf m.before)).utf8ByteSize + "module top".utf8ByteSize ≤
      m.front.utf8ByteSize := by
    rw [hfront, String.utf8ByteSize_append, String.utf8ByteSize_append]
    exact Nat.le_add_right _ _
  have hclosing : Text.OccursAt "endmodule" t m.front.utf8ByteSize := by
    refine (Text.occursAt_iff (by decide)).2 ⟨m.front, String.ofList (textOf m.after), ?_, rfl⟩
    rw [String.append_assoc]
    refine m.text_eq.trans (congrArg _ ?_)
    rw [back, textOf_cons, String.ofList_append]
    rfl
  obtain ⟨i, e, hopening⟩ := exists_opening_iff.2 ⟨_, _, hown, hbehind, hclosing⟩
  have hle : e ≤ m.front.utf8ByteSize := hopening.closing.2
    ⟨(Nat.add_le_add_right (hopening.top.2 hown) _).trans hbehind, hclosing⟩
  obtain rfl := hle.antisymm (h.front_le hopening)
  exact ⟨i, hopening⟩

end TopModule

end Verilog

namespace PrecompiledDesign

open Verilog

variable {d : PrecompiledDesign} {table : LoweringTable} {v : View} {file : Path} {t : String}

/-- Where the items of a design stand in its Verilog text, if that declares a module `top`. -/
structure Splices (d : PrecompiledDesign) (table : LoweringTable) (v : View) (m : TopModule t) :
    Prop where
  /-- If the search leads there, they stand in front of the word that closes the module. -/
  reached : m.Reached → d.verilog table v =
    .ok (d.generated (m.front ++ items table d.manifest.primitives ++ m.back))
  /-- If not, they stand elsewhere or nowhere. -/
  missed : ¬ m.Reached → (∃ f, d.verilog table v = .error f) ∨ ∃ a b, t = a ++ b ∧ a ≠ m.front ∧
    d.verilog table v = .ok (d.generated (a ++ items table d.manifest.primitives ++ b))
  /-- It does lead there if the module is plain. -/
  plain : m.Plain → m.Reached

/-- **Items are spliced in front of the word that closes the top module exactly if the search by
letters leads there.** -/
theorem splices_topModule (hfile : d.manifest.design.verilog = some file)
    (hread : v.readText (Path.absolutize d.root file) = .ok t)
    (hprimitives : d.manifest.primitives ≠ []) (m : TopModule t) : Splices d table v m := by
  have hverilog := verilog_eq table hfile hread
  rw [if_neg (by simpa using hprimitives)] at hverilog
  constructor
  case reached =>
    rintro ⟨i, h⟩
    obtain ⟨a, b, hab, hsize, hsplice⟩ := splice?_of_opening _ h
    obtain ⟨rfl, rfl⟩ := Text.append_inj_of_size (hab.symm.trans m.text_eq) hsize
    rw [hverilog, hsplice]
  case missed =>
    intro hnot
    by_cases hopening : ∃ i e, Opening t i e
    · obtain ⟨i, e, h⟩ := hopening
      obtain ⟨a, b, hab, rfl, hsplice⟩ := splice?_of_opening _ h
      exact .inr ⟨a, b, hab, fun ha => hnot ⟨i, ha ▸ h⟩, by rw [hverilog, hsplice]⟩
    · rw [(splice?_eq_none_iff _).2 hopening] at hverilog
      exact .inl ⟨_, hverilog⟩
  case plain => exact TopModule.Plain.reached

/-- A design in `/p` that keeps a register, seen with a text as its artifact. -/
def keptDesign : PrecompiledDesign where
  manifest := {
    design := ⟨⟨"xc6slx9"⟩, some ⟨"top.v"⟩, none, [], []⟩
    signals := []
    clocks := []
    commands := []
    primitives := [.noRetiming "a"]
    synthesizer := none }
  root := ⟨"/p"⟩

def keptView (text : String) : View :=
  ⟨FileTree.empty.plant ["p", "top.v"] (.file (.text text) false), []⟩

/-- A text with another module, and with comments around the top module of which one mentions it. -/
def layeredText : String :=
  "module top2;\nendmodule\n/* \" module top */\nmodule top;\n// \"\nendmodule // endmodule\n"

def layeredModule : TopModule layeredText where
  before := [word "module", space, word "top2", ⟨.symbol, [';']⟩, ⟨.blank, ['\n']⟩,
    word "endmodule", ⟨.blank, ['\n']⟩, ⟨.comment, "/* \" module top */".toList⟩,
    ⟨.blank, ['\n']⟩]
  gap := [space]
  body := [⟨.symbol, [';']⟩, ⟨.blank, ['\n']⟩, ⟨.comment, "// \"".toList⟩, ⟨.blank, ['\n']⟩]
  after := [space, ⟨.comment, "// endmodule".toList⟩, ⟨.blank, ['\n']⟩]
  lexemes_eq := by decide +kernel
  gap_spacing := by decide
  notMem_body := by decide

theorem splices_layeredModule :
    layeredModule.Plain ∧ (keptDesign.verilog .xilinx (keptView layeredText)) =
      .ok (keptDesign.generated (layeredModule.front ++
        "// synthesis attribute register_balancing of a is no\n" ++ layeredModule.back)) := by
  have hplain : layeredModule.Plain := by
    constructor <;> decide +kernel
  have hsplices : Splices keptDesign .xilinx (keptView layeredText) layeredModule :=
    splices_topModule rfl rfl (by decide) layeredModule
  exact ⟨hplain, hsplices.reached (hsplices.plain hplain)⟩

/-- A text with a comment that mentions the word. -/
def commentedText : String :=
  "module top(input a);\n// the endmodule follows\nendmodule\n"

def commentedModule : TopModule commentedText where
  before := []
  gap := [space]
  body := [⟨.symbol, ['(']⟩, word "input", space, word "a", ⟨.symbol, [')']⟩, ⟨.symbol, [';']⟩,
    ⟨.blank, ['\n']⟩, ⟨.comment, "// the endmodule follows".toList⟩, ⟨.blank, ['\n']⟩]
  after := [⟨.blank, ['\n']⟩]
  lexemes_eq := by decide +kernel
  gap_spacing := by decide
  notMem_body := by decide

/-- The items are put into the comment, and not in front of the word that closes the module. -/
theorem misplaced_commentedModule :
    (keptDesign.verilog .xilinx (keptView commentedText)).toOption.map Generated.text = some
      ("module top(input a);\n// the // synthesis attribute register_balancing of a is no\n" ++
        "endmodule follows\nendmodule\n") ∧
      keptDesign.verilog .xilinx (keptView commentedText) ≠
        .ok (keptDesign.generated (commentedModule.front ++
          items .xilinx keptDesign.manifest.primitives ++ commentedModule.back)) := by
  have htext : (keptDesign.verilog .xilinx (keptView commentedText)).toOption.map Generated.text =
      some ("module top(input a);\n// the // synthesis attribute register_balancing of a is no\n" ++
        "endmodule follows\nendmodule\n") := by
    decide +kernel
  refine ⟨htext, fun h => ?_⟩
  rw [h] at htext
  revert htext
  decide +kernel

end PrecompiledDesign

end FpgaFlow
