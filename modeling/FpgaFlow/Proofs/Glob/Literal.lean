import FpgaFlow.Proofs.Glob.Matching
import FpgaFlow.Proofs.Path.Components

/-!
# Patterns behind plain text

In most places a character of a pattern stands for itself (`Pattern.Ordinary`).  A
directory with no other characters in its path may be written in front of a pattern: its
names become components that stand for themselves, and the components of the pattern
follow them (`PathPattern.parse_child`).
-/

namespace FpgaFlow

namespace Glob

namespace Pattern

/-- A character that stands for itself in every pattern, outside of brackets. -/
def Ordinary (c : Char) : Prop :=
  c ≠ '?' ∧ c ≠ '*' ∧ c ≠ '['

instance (c : Char) : Decidable (Ordinary c) :=
  inferInstanceAs (Decidable (_ ∧ _ ∧ _))

/-- The pattern that stands for one name. -/
def literal (name : String) : Pattern :=
  ⟨name.toList.map .char⟩

theorem literal?_literal (name : String) : (literal name).literal? = some name := by
  rw [literal?, literal, literalChars?_eq_some_iff.2 rfl, Option.map_some, String.ofList_toList]

theorem isRecursive_literal (name : String) : (literal name).isRecursive = false := by
  simp [isRecursive, literal]

theorem push_char (tokens : List Token) (c : Char) :
    push tokens (.char c) = tokens ++ [.char c] := by
  simp [push]

variable {s t : List Char}

/-- Ordinary characters are read one by one. -/
theorem readFrom_append (hs : ∀ c ∈ s, Ordinary c) (n : Nat) (tokens : List Token) (position : Nat)
    (before : Option Char) : readFrom (s.length + n) tokens position before (s ++ t) =
      readFrom n (tokens ++ s.map .char) (position + s.length) (s.getLast?.or before) t := by
  induction s generalizing tokens position before with
  | nil => simp
  | cons c s ih =>
    obtain ⟨⟨hany, hstar, hbracket⟩, hs⟩ := List.forall_mem_cons.1 hs
    rw [List.length_cons, Nat.add_right_comm, List.cons_append, readFrom, if_neg hany,
      if_neg hstar, if_neg hbracket, push_char, ih hs]
    have hlast : (s.getLast?.or (some c)) = (c :: s).getLast?.or before := by
      cases h : s.getLast? <;> simp [List.getLast?_cons, h]
    rw [hlast, List.append_assoc, List.map_cons, Nat.add_right_comm, Nat.add_assoc]
    rfl

theorem parse_of_ordinary (hs : ∀ c ∈ s, Ordinary c) :
    parse s = .ok (literal (String.ofList s)) := by
  have hread := readFrom_append (t := []) hs 0 [] 0 none
  rw [List.append_nil, Nat.add_zero] at hread
  rw [parse, hread, literal, String.toList_ofList]
  rfl

/-- Whether a text can be read on does not depend on the parts that were read before it. -/
theorem isOk_readFrom {n : Nat} {tokens tokens' : List Token} {i j : Nat} {b b' : Option Char}
    {cs : List Char} (h : (i = 0 ∨ b = some '/') ↔ (j = 0 ∨ b' = some '/')) :
    (readFrom n tokens i b cs).isOk = (readFrom n tokens' j b' cs).isOk := by
  induction n generalizing tokens tokens' i j b b' cs with
  | zero => rfl
  | succ n ih =>
    cases cs with
    | nil => rfl
    | cons c cs =>
      have hnext (k : Nat) (tokens tokens' : List Token) (a : Char) (rest : List Char) :
          (readFrom n tokens (i + (k + 1)) (some a) rest).isOk =
            (readFrom n tokens' (j + (k + 1)) (some a) rest).isOk :=
        ih (or_congr (iff_of_false (by omega) (by omega)) Iff.rfl)
      rw [readFrom, readFrom]
      by_cases hany : c = '?'
      · rw [if_pos hany, if_pos hany]
        exact hnext 0 _ _ c cs
      rw [if_neg hany, if_neg hany]
      by_cases hstar : c = '*'
      · rw [if_pos hstar, if_pos hstar]
        dsimp only
        split
        next => rfl
        next =>
          split
          next =>
            by_cases hstart : i = 0 ∨ b = some '/'
            · rw [if_pos hstart, if_pos (h.1 hstart)]
              split
              next => exact hnext 1 _ _ '*' []
              next rest _ => exact hnext 2 _ _ '/' rest
              next => rfl
            · rw [if_neg hstart, if_neg fun hstart' => hstart (h.2 hstart')]
              rfl
          next => exact hnext 0 _ _ '*' _
      rw [if_neg hstar, if_neg hstar]
      by_cases hbracket : c = '['
      · rw [if_pos hbracket, if_pos hbracket]
        split
        next token rest _ =>
          rw [Nat.add_assoc, Nat.add_assoc, Nat.add_comm 1]
          exact hnext _ _ _ ']' rest
        next => rfl
      rw [if_neg hbracket, if_neg hbracket]
      exact hnext 0 _ _ c cs

/-- A text can be read as a pattern behind plain text if it can be read by itself. -/
theorem exists_parse_append (hs : ∀ c ∈ s, Ordinary c) (h : ∃ p, parse t = .ok p) :
    ∃ p, parse (s ++ '/' :: t) = .ok p := by
  have hfront : ∀ c ∈ s ++ ['/'], Ordinary c :=
    List.forall_mem_append.2 ⟨hs, fun c hc => List.mem_singleton.1 hc ▸ by decide⟩
  have hread := readFrom_append (t := t) hfront t.length [] 0 none
  rw [← List.length_append, List.append_assoc, List.getLast?_concat] at hread
  rw [← isOk_eq_true_iff, parse] at h ⊢
  rw [← List.singleton_append, hread, ← h]
  exact isOk_readFrom (iff_of_true (.inr rfl) (.inl rfl))

end Pattern

/-! ### Components -/

theorem collapse_literals (names : List String) (ps : List Pattern) :
    collapse (names.map Pattern.literal ++ ps) = names.map Pattern.literal ++ collapse ps := by
  induction names with
  | nil => rfl
  | cons name names ih =>
    rw [List.map_cons, List.cons_append, List.cons_append, ← ih]
    cases h : names.map Pattern.literal ++ ps with
    | nil => rfl
    | cons q qs => rw [collapse, Pattern.isRecursive_literal, Bool.false_and, if_neg (by simp)]

/-- The components of a text that begins with other components. -/
theorem componentTexts_append (s t : List Char) :
    componentTexts (s ++ '/' :: t) = Text.splitOn '/' s ++ componentTexts t := by
  have hne := Text.splitOn_ne_nil '/' t
  rw [componentTexts, componentTexts, Text.splitOn_append_cons,
    List.getLast?_append_of_ne_nil _ hne, List.dropLast_append_of_ne_nil hne]
  split <;> rfl

theorem subset_of_mem_splitOn {sep : Char} {s piece : List Char} (h : piece ∈ Text.splitOn sep s) :
    piece ⊆ s := by
  induction s generalizing piece with
  | nil =>
    rw [Text.splitOn, List.mem_singleton] at h
    rw [h]
    exact List.nil_subset _
  | cons c s ih =>
    rw [Text.splitOn] at h
    split at h
    next =>
      rcases List.mem_cons.1 h with rfl | h
      · exact List.nil_subset _
      · exact List.subset_cons_of_subset c (ih h)
    next =>
      cases hs : Text.splitOn sep s with
      | nil => exact absurd hs (Text.splitOn_ne_nil sep s)
      | cons p ps =>
        rw [hs] at h ih
        rcases List.mem_cons.1 h with rfl | h
        · exact List.cons_subset_cons c (ih List.mem_cons_self)
        · exact List.subset_cons_of_subset c (ih (List.mem_cons_of_mem p h))

end Glob

namespace Path

/-- Where the way begins that a path describes. -/
def origin (p : Path) : Path :=
  if p.isAbsolute then ⟨"/"⟩ else ⟨"."⟩

/-- A path describes the way by these names; it may end in a slash. -/
def Spells (p : Path) (names : List String) : Prop :=
  ∃ blank : List String, (∀ s ∈ blank, s = "") ∧
    p.pieces = (if p.isAbsolute then [""] else []) ++ (names ++ blank)

end Path

namespace Glob.PathPattern

open Pattern

variable {base : Path} {pattern : String} {p : PathPattern}

/-- A text behind a path and a slash starts where the path does, and its components are those of
the path and its own. -/
theorem split_append {front : List Char} (hbase : base.text ≠ "")
    (hfront : base.text.toList = front ∨ base.text.toList = front ++ ['/']) :
    ∃ pieces : List (List Char), base.Spells (pieces.map String.ofList) ∧
      (∀ piece ∈ pieces, piece ⊆ front) ∧
      ∀ t, ∃ rest, split (front ++ '/' :: t) = (base.origin, rest) ∧ (rest = [] → t = []) ∧
        componentTexts rest = pieces ++ componentTexts t := by
  have hpieces : ∃ blank : List String, (∀ s ∈ blank, s = "") ∧
      base.pieces = (Text.splitOn '/' front).map String.ofList ++ blank := by
    rcases hfront with hb | hb
    · exact ⟨[], by simp, by rw [Path.pieces, hb, List.append_nil]⟩
    · refine ⟨[""], by simp, ?_⟩
      rw [Path.pieces, hb, Text.splitOn_append_cons, List.map_append]
      rfl
  have habsolute {rest : List Char} (h : base.text.toList = '/' :: rest) : base.isAbsolute = true :=
    Path.isAbsolute_eq_true_iff.2 ⟨rest, h⟩
  cases front with
  | nil =>
    have habs := habsolute (hfront.resolve_left (Path.toList_ne_nil hbase))
    refine ⟨[], ⟨[""], by simp, ?_⟩, by simp, fun t => ⟨t, ?_, id, rfl⟩⟩
    · rw [Path.pieces, hfront.resolve_left (Path.toList_ne_nil hbase), if_pos habs]
      rfl
    · rw [Path.origin, if_pos habs]
      rfl
  | cons c front =>
    by_cases hc : c = '/'
    · subst hc
      have habs : base.isAbsolute = true := hfront.elim habsolute habsolute
      rw [Text.splitOn, if_pos rfl] at hpieces
      refine ⟨Text.splitOn '/' front, ?_, ?_, fun t => ⟨front ++ '/' :: t, ?_, by simp, ?_⟩⟩
      · rw [Path.Spells, if_pos habs]
        exact hpieces
      · exact fun piece h => List.subset_cons_of_subset _ (subset_of_mem_splitOn h)
      · rw [Path.origin, if_pos habs]
        rfl
      · exact componentTexts_append front t
    · have hrel : base.isAbsolute = false := by
        rw [Path.isAbsolute]
        rcases hfront with hb | hb <;> simp [hb, hc]
      refine ⟨Text.splitOn '/' (c :: front), ?_, fun piece => subset_of_mem_splitOn,
        fun t => ⟨c :: front ++ '/' :: t, ?_, by simp, ?_⟩⟩
      · rw [Path.Spells, hrel]
        exact hpieces
      · rw [Path.origin, hrel]
        simp [split, hc]
      · exact componentTexts_append (c :: front) t

theorem ordinary_front {front : List Char} (hplain : ∀ c ∈ base.text.toList, Ordinary c)
    (hfront : base.text.toList = front ∨ base.text.toList = front ++ ['/']) :
    ∀ c ∈ front, Ordinary c := by
  intro c hc
  rcases hfront with h | h
  · exact hplain c (h ▸ hc)
  · exact hplain c (h ▸ List.mem_append_left _ hc)

theorem map_parse_of_ordinary {pieces : List (List Char)} {s : List Char}
    (hs : ∀ c ∈ s, Ordinary c) (hpieces : ∀ piece ∈ pieces, piece ⊆ s) :
    pieces.map Pattern.parse = ((pieces.map String.ofList).map literal).map .ok := by
  rw [List.map_map, List.map_map]
  exact List.map_congr_left fun piece hpiece =>
    parse_of_ordinary fun c hc => hs c (hpieces piece hpiece hc)

/-- The empty pattern stands for the directory itself. -/
theorem parse_child_empty (hbase : base.text ≠ "") (hplain : ∀ c ∈ base.text.toList, Ordinary c) :
    ∃ p, parse (base.child "").text = .ok p ∧ p.directoriesOnly = true := by
  obtain ⟨front, hjoin, hfront⟩ := Path.toList_join (q := ⟨""⟩) rfl hbase
  obtain ⟨pieces, -, hsubset, hsplit⟩ := split_append hbase hfront
  have hordinary := ordinary_front hplain hfront
  obtain ⟨rest, hrest, -, htexts⟩ := hsplit []
  have htext : (base.child "").text.toList = front ++ ['/'] := hjoin
  rw [show componentTexts [] = [] from rfl, List.append_nil] at htexts
  have hcomponents : (componentTexts (split (front ++ ['/'])).2).mapM Pattern.parse =
      .ok ((pieces.map String.ofList).map literal) := by
    rw [hrest, htexts, mapM_eq_ok_iff, map_parse_of_ordinary hordinary hsubset]
  rw [← htext] at hcomponents
  refine ⟨_, parse_eq_ok_iff.2 ⟨?_, _, hcomponents, rfl⟩, ?_⟩
  · rw [htext]
    exact exists_parse_append hordinary ⟨_, rfl⟩
  · simp [htext]

/-- **A pattern below a directory** whose path is plain text: the names of the path stand for
themselves. -/
theorem parse_child (hbase : base.text ≠ "") (hplain : ∀ c ∈ base.text.toList, Ordinary c)
    (hrelative : (⟨pattern⟩ : Path).isAbsolute = false) (hne : pattern ≠ "") :
    ∃ names, base.Spells names ∧ ∀ p, parse pattern = .ok p →
      parse (base.child pattern).text = .ok {
        scope := base.origin
        components := names.map literal ++ p.components
        directoriesOnly := p.directoriesOnly } := by
  obtain ⟨front, hjoin, hfront⟩ := Path.toList_join hrelative hbase
  obtain ⟨pieces, hspells, hsubset, hsplit⟩ := split_append hbase hfront
  have hordinary := ordinary_front hplain hfront
  have hnil : pattern.toList ≠ [] := Path.toList_ne_nil hne
  have hsplitPattern : split pattern.toList = (⟨"."⟩, pattern.toList) := by
    rw [Path.isAbsolute] at hrelative
    cases h : pattern.toList with
    | nil => exact absurd h hnil
    | cons c cs =>
      have hc : c ≠ '/' := by simpa [h] using hrelative
      simp [split, hc]
  refine ⟨_, hspells, fun p hp => ?_⟩
  obtain ⟨hwhole, components, hcomponents, rfl⟩ := parse_eq_ok_iff.1 hp
  obtain ⟨rest, hrest, hempty, htexts⟩ := hsplit pattern.toList
  have htext : (base.child pattern).text.toList = front ++ '/' :: pattern.toList := hjoin
  have hpatternEmpty : ¬ pattern.toList.isEmpty = true := by
    rwa [List.isEmpty_iff]
  have hrestEmpty : ¬ rest.isEmpty = true := by
    rw [List.isEmpty_iff]
    exact fun h => hnil (hempty h)
  rw [hsplitPattern, mapM_eq_ok_iff] at hcomponents
  rw [parse_eq_ok_iff, htext, hrest]
  refine ⟨exists_parse_append hordinary hwhole,
    (pieces.map String.ofList).map literal ++ components, ?_, ?_⟩
  · rw [htexts, mapM_eq_ok_iff, List.map_append, List.map_append,
      map_parse_of_ordinary hordinary hsubset, hcomponents]
  · have hlast : (front ++ '/' :: pattern.toList).getLast? = pattern.toList.getLast? := by
      rw [List.append_cons, List.getLast?_append_of_ne_nil _ hnil]
    rw [hsplitPattern, hlast, if_neg hrestEmpty, if_neg hpatternEmpty, collapse_literals]

end Glob.PathPattern

end FpgaFlow
