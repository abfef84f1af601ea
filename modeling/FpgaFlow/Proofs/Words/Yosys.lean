import FpgaFlow.Proofs.Words.Splitting

/-!
# The words of a command of the open synthesizer

The open synthesizer splits a command at all blanks, except in a word that begins with a double
quote: if there is a double quote behind it that a blank or the end of the command follows, the word
is what stands between the two.  There are no other quotes and no escapes.

**Main statement** (`Yosys.words_line_iff`): words of which at most the last one begins with a
double quote are read back if and only if there are no blanks in them and the last one does not
stand in double quotes.
-/

namespace FpgaFlow.Yosys

open Splitter

/-- Where a place in a command is. -/
inductive Place where
  | between
  | inside
  | quoted
  deriving DecidableEq

/-- A character between words. -/
def blank (c : Char) : Bool :=
  c = ' ' || c = '\t' || c = '\r' || c = '\n'

/-- Whether a quoted word ends somewhere in the rest of a command. -/
def closes : List Char → Bool
  | [] => false
  | c :: s => c = '"' && s.head?.all blank || closes s

/-- What the synthesizer makes of a character. -/
def role : Place → Char → List Char → Role × Place
  | .between, c, rest =>
    if blank c then (.gap, .between)
    else if c = '"' ∧ closes rest then (.mark, .quoted)
    else (.letter, .inside)
  | .inside, c, _ => if blank c then (.gap, .between) else (.letter, .inside)
  | .quoted, c, rest =>
    if c = '"' ∧ rest.head?.all blank then (.mark, .between) else (.letter, .quoted)

/-- How the synthesizer splits commands. -/
def splitter : Splitter Place where
  start := .between
  role := role

/-- The words of a command. -/
def words (command : String) : List String :=
  splitter.words command

/-- A text without blanks. -/
def Blankless (text : String) : Prop :=
  ∀ c ∈ text.toList, blank c = false

/-- A text that stands in double quotes. -/
def Quoted (text : String) : Prop :=
  ∃ s, text.toList = '"' :: (s ++ ['"'])

/-! ### Words without blanks -/

instance (text : String) : Decidable (Blankless text) :=
  List.decidableBAll (blank · = false) text.toList

theorem blankless_append_iff {s t : String} :
    Blankless (s ++ t) ↔ Blankless s ∧ Blankless t := by
  rw [Blankless, String.toList_append, List.forall_mem_append]
  rfl

/-- Inside a word everything but a blank is a letter. -/
theorem roles_inside {s : List Char} (h : ∀ c ∈ s, blank c = false) (rest : List Char) :
    splitter.roles .inside (s ++ rest) =
      s.map (fun c => (.letter, c)) ++ splitter.roles .inside rest := by
  induction s with
  | nil => rfl
  | cons c s ih =>
    have hc : splitter.role .inside c (s ++ rest) = (.letter, .inside) := by
      refine (if_neg ?_).trans rfl
      rw [h c List.mem_cons_self]
      exact Bool.false_ne_true
    rw [List.cons_append, Splitter.roles, hc, ih fun d hd => h d (List.mem_cons_of_mem c hd)]
    rfl

/-- A word that does not begin with a quote that is closed. -/
theorem roles_between {c : Char} {s : List Char} (h : ∀ d ∈ c :: s, blank d = false)
    {rest : List Char} (hc : ¬ (c = '"' ∧ closes (s ++ rest) = true)) :
    splitter.roles .between (c :: s ++ rest) =
      (c :: s).map (fun d => (.letter, d)) ++ splitter.roles .inside rest := by
  have hrole : splitter.role .between c (s ++ rest) = (.letter, .inside) := by
    refine (if_neg ?_).trans (if_neg hc)
    rw [h c List.mem_cons_self]
    exact Bool.false_ne_true
  rw [List.cons_append, Splitter.roles, hrole,
    roles_inside (fun d hd => h d (List.mem_cons_of_mem c hd)) rest]
  rfl

theorem closes_concat (s : List Char) : closes (s ++ ['"']) = true := by
  induction s with
  | nil => rfl
  | cons c s ih => rw [List.cons_append, closes, ih, Bool.or_true]

/-- Without blanks only a quote at the end closes. -/
theorem closes_iff {s : List Char} (h : ∀ c ∈ s, blank c = false) :
    closes s = true ↔ ∃ t, s = t ++ ['"'] := by
  refine ⟨fun hcloses => ?_, fun ⟨t, ht⟩ => ht ▸ closes_concat t⟩
  induction s with
  | nil => cases hcloses
  | cons c s ih =>
    have hs : ∀ d ∈ s, blank d = false := fun d hd => h d (List.mem_cons_of_mem c hd)
    rw [closes, Bool.or_eq_true, Bool.and_eq_true, decide_eq_true_iff] at hcloses
    rcases hcloses with ⟨rfl, hhead⟩ | hcloses
    · cases s with
      | nil => exact ⟨[], rfl⟩
      | cons d s =>
        rw [List.head?_cons, Option.all_some, hs d List.mem_cons_self] at hhead
        cases hhead
    · obtain ⟨t, rfl⟩ := ih hs hcloses
      exact ⟨c :: t, rfl⟩

/-- In a text without marks all blanks are gaps. -/
theorem roles_of_no_marks {q : Place} (hq : q ≠ .quoted) {s : List Char}
    (h : ∀ r ∈ splitter.roles q s, r.1 ≠ .mark) :
    ∀ r ∈ splitter.roles q s, r.1 = .gap ↔ blank r.2 = true := by
  induction s generalizing q with
  | nil => exact List.forall_mem_nil _
  | cons c s ih =>
    have hstep : (role q c s).2 ≠ .quoted ∧ ((role q c s).1 = .gap ↔ blank c = true) := by
      have hc : (role q c s).1 ≠ .mark := h _ List.mem_cons_self
      cases q with
      | quoted => exact absurd rfl hq
      | inside =>
        rw [role]
        cases blank c <;> simp
      | between =>
        rw [role] at hc ⊢
        by_cases hblank : blank c = true
        · simp [hblank]
        · rw [if_neg hblank] at hc ⊢
          by_cases hquote : c = '"' ∧ closes s = true
          · rw [if_pos hquote] at hc
            exact absurd rfl hc
          · simp [hquote, hblank]
    rw [Splitter.roles] at h ⊢
    exact List.forall_mem_cons.2
      ⟨hstep.2, ih hstep.1 fun r hr => h r (List.mem_cons_of_mem _ hr)⟩

/-! ### Lines that are written word for word -/

/-- A word that is not the last one of a command. -/
def Inner (a : List Char) : Prop :=
  a ≠ [] ∧ a.head? ≠ some '"' ∧ ∀ c ∈ a, blank c = false

theorem roles_inner {a : List Char} (h : Inner a) (rest : List Char) :
    splitter.roles .between (a ++ ' ' :: rest) =
      a.map (fun d => (.letter, d)) ++ (.gap, ' ') :: splitter.roles .between rest := by
  obtain ⟨hne, hhead, hblank⟩ := h
  cases a with
  | nil => exact absurd rfl hne
  | cons c s =>
    have hc : ¬ (c = '"' ∧ closes (s ++ ' ' :: rest) = true) := by
      rintro ⟨rfl, -⟩
      exact hhead rfl
    exact roles_between hblank hc

/-- The words before the last one are read word for word. -/
theorem exists_roles {heads : List (List Char)} (h : ∀ a ∈ heads, Inner a) (final : List Char) :
    ∃ rs, splitter.roles .between (line (heads ++ [final])) =
        rs ++ splitter.roles .between final ∧
      ∀ rs', wordsFrom none (rs ++ rs') = heads ++ wordsFrom none rs' := by
  induction heads with
  | nil => exact ⟨[], by rw [List.nil_append, line_singleton, List.nil_append], fun _ => rfl⟩
  | cons a heads ih =>
    have ha : Inner a := h a List.mem_cons_self
    obtain ⟨rs, hroles, hwords⟩ := ih fun b hb => h b (List.mem_cons_of_mem a hb)
    refine ⟨a.map (fun d => (.letter, d)) ++ (.gap, ' ') :: rs, ?_, fun rs' => ?_⟩
    · have hne : heads ++ [final] ≠ [] := by simp
      rw [List.cons_append, line_cons a hne, roles_inner ha, hroles, List.append_assoc,
        List.cons_append]
    · rw [List.append_assoc, List.cons_append, wordsFrom_append_gap, wordsFrom_none_letters ha.1,
        hwords]
      rfl

/-- A word in double quotes begins with a mark. -/
theorem mark_mem_roles (s : List Char) :
    (Role.mark, '"') ∈ splitter.roles .between ('"' :: (s ++ ['"'])) := by
  have hrole : splitter.role .between '"' (s ++ ['"']) = (.mark, .quoted) :=
    if_pos ⟨rfl, closes_concat s⟩
  rw [Splitter.roles, hrole]
  exact List.mem_cons_self

theorem roles_last {final : List Char} (hne : final ≠ []) (hblank : ∀ c ∈ final, blank c = false)
    (hquoted : ¬ ∃ s, final = '"' :: (s ++ ['"'])) :
    splitter.roles .between final = final.map fun c => (.letter, c) := by
  cases final with
  | nil => exact absurd rfl hne
  | cons c s =>
    have hc : ¬ (c = '"' ∧ closes (s ++ []) = true) := by
      rintro ⟨rfl, hcloses⟩
      rw [List.append_nil, closes_iff fun d hd => hblank d (List.mem_cons_of_mem _ hd)] at hcloses
      obtain ⟨t, rfl⟩ := hcloses
      exact hquoted ⟨t, rfl⟩
    have hroles := roles_between hblank hc
    rwa [List.append_nil, Splitter.roles, List.append_nil] at hroles

theorem split_line_iff {heads : List (List Char)} {final : List Char}
    (h : ∀ a ∈ heads, a.head? ≠ some '"') :
    splitter.split (line (heads ++ [final])) = heads ++ [final] ↔
      (∀ a ∈ heads ++ [final], a ≠ [] ∧ ∀ c ∈ a, blank c = false) ∧
        ¬ ∃ s, final = '"' :: (s ++ ['"']) := by
  have hinner (hblank : ∀ a ∈ heads ++ [final], a ≠ [] ∧ ∀ c ∈ a, blank c = false) :
      ∀ a ∈ heads, Inner a := by
    intro a ha
    have ha' := hblank a (List.mem_append_left _ ha)
    exact ⟨ha'.1, h a ha, ha'.2⟩
  constructor
  · intro hsplit
    obtain ⟨hmarks, hblank⟩ := splitter.of_split_line rfl
      (fun s hs => roles_of_no_marks (by decide) hs) hsplit
    obtain ⟨rs, hroles, -⟩ := exists_roles (hinner hblank) final
    refine ⟨hblank, ?_⟩
    rintro ⟨s, rfl⟩
    refine hmarks (.mark, '"') ?_ rfl
    exact hroles ▸ List.mem_append_right rs (mark_mem_roles s)
  · rintro ⟨hblank, hquoted⟩
    obtain ⟨rs, hroles, hwords⟩ := exists_roles (hinner hblank) final
    obtain ⟨hne, hfinal⟩ := hblank final (by simp)
    refine (congrArg (wordsFrom none) hroles).trans ?_
    rw [hwords, roles_last hne hfinal hquoted, wordsFrom_none_letters hne]

/-- **Words are read back if and only if they have no blanks** and the last one does not stand in
double quotes. -/
theorem words_line_iff {heads : List String} {final : String}
    (h : ∀ a ∈ heads, a.toList.head? ≠ some '"') :
    words (String.intercalate " " (heads ++ [final])) = heads ++ [final] ↔
      (∀ a ∈ heads ++ [final], a ≠ "" ∧ Blankless a) ∧ ¬ Quoted final := by
  rw [words, words_intercalate_eq_iff, List.map_append]
  refine (split_line_iff (List.forall_mem_map.2 h)).trans (and_congr_left' ?_)
  show (∀ a ∈ heads.map String.toList ++ [final].map String.toList, _) ↔ _
  rw [← List.map_append, List.forall_mem_map]
  simp only [Blankless, ne_eq, String.toList_eq_nil_iff]

end FpgaFlow.Yosys
