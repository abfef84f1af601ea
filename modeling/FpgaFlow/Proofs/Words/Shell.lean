import FpgaFlow.Proofs.Words.Splitting

/-!
# The words of a shell command

The shell splits a command at the blanks that are not quoted.  A backslash quotes the character
behind it, single quotes quote everything up to the next one, and between double quotes a backslash
quotes only what would otherwise mean something there.  Nothing else that the shell does to words is
looked at.

**Main statement** (`Shell.words_line_iff`): words that were written with one blank between them are
read back if and only if they are plain, that is if no character of them is a blank, a quote or a
backslash.  Behind a text whose quotes are closed (`Shell.Closed`) it is the same
(`Shell.words_append_line_iff`).
-/

namespace FpgaFlow.Shell

open Splitter

/-- What is quoted at a place in a command. -/
inductive Quoting where
  | bare
  | escaped
  | single
  | double
  | escapedInDouble
  deriving DecidableEq

/-- A character between words. -/
def blank (c : Char) : Bool :=
  c = ' ' || c = '\t' || c = '\n'

/-- A character that a backslash quotes between double quotes. -/
def escapable (c : Char) : Bool :=
  "$`\"\\\n".toList.contains c

/-- What the shell makes of a character. -/
def role : Quoting → Char → List Char → Role × Quoting
  | .bare, c, _ =>
    if c = '\\' then (.mark, .escaped)
    else if c = '\'' then (.mark, .single)
    else if c = '"' then (.mark, .double)
    else if blank c then (.gap, .bare)
    else (.letter, .bare)
  | .escaped, _, _ => (.letter, .bare)
  | .single, c, _ => if c = '\'' then (.mark, .bare) else (.letter, .single)
  | .double, c, rest =>
    if c = '"' then (.mark, .bare)
    else if c = '\\' ∧ rest.head?.any escapable then (.mark, .escapedInDouble)
    else (.letter, .double)
  | .escapedInDouble, _, _ => (.letter, .double)

/-- How the shell splits commands. -/
def splitter : Splitter Quoting where
  start := .bare
  role := role

/-- The words of a command. -/
def words (command : String) : List String :=
  splitter.words command

/-- All quotes of a text are closed at its end. -/
def Closed (text : String) : Prop :=
  splitter.stateAfter Quoting.bare text.toList = Quoting.bare

/-- The characters that quote others. -/
def quotes : List Char :=
  ['\'', '"', '\\']

/-- A character that the shell takes as it is wherever it stands. -/
def PlainChar (c : Char) : Prop :=
  blank c = false ∧ c ∉ quotes

/-- A text without quotes and backslashes. -/
def Unquoted (text : String) : Prop :=
  ∀ c ∈ text.toList, c ∉ quotes

/-- A text without blanks, quotes and backslashes. -/
def Plain (text : String) : Prop :=
  ∀ c ∈ text.toList, PlainChar c

/-! ### Plain texts -/

instance (c : Char) : Decidable (PlainChar c) :=
  inferInstanceAs (Decidable (_ ∧ _))

instance (text : String) : Decidable (Unquoted text) :=
  List.decidableBAll (· ∉ quotes) text.toList

instance (text : String) : Decidable (Plain text) :=
  List.decidableBAll PlainChar text.toList

theorem plain_append_iff {s t : String} : Plain (s ++ t) ↔ Plain s ∧ Plain t := by
  rw [Plain, String.toList_append, List.forall_mem_append]
  rfl

theorem plainChar_of_isDigit {c : Char} (h : c.isDigit = true) : PlainChar c := by
  have hne {d : Char} (hd : d.isDigit = false) : c ≠ d := by
    rintro rfl
    rw [hd] at h
    cases h
  simp [PlainChar, blank, quotes, hne]

theorem role_bare {c : Char} (h : c ∉ quotes) (rest : List Char) :
    role .bare c rest = (if blank c then .gap else .letter, .bare) := by
  simp only [quotes, List.mem_cons, List.not_mem_nil, or_false, not_or] at h
  cases hblank : blank c <;> simp [role, hblank, h]

theorem role_quote {c : Char} (h : c ∈ quotes) (rest : List Char) :
    (role .bare c rest).1 = .mark := by
  simp only [quotes, List.mem_cons, List.not_mem_nil, or_false] at h
  rcases h with rfl | rfl | rfl <;> rfl

/-- Plain characters are letters, and nothing is quoted behind them. -/
theorem roles_of_plain {s : List Char} (h : ∀ c ∈ s, PlainChar c) :
    splitter.roles .bare s = s.map (fun c => (.letter, c)) ∧
      splitter.stateAfter .bare s = .bare := by
  induction s with
  | nil => exact ⟨rfl, rfl⟩
  | cons c s ih =>
    have hplain : PlainChar c := h c List.mem_cons_self
    have hc : splitter.role .bare c s = (.letter, .bare) := by
      refine (role_bare hplain.2 s).trans ?_
      rw [hplain.1]
      rfl
    have hs := ih fun d hd => h d (List.mem_cons_of_mem c hd)
    rw [Splitter.roles, Splitter.stateAfter, hc, hs.1]
    exact ⟨rfl, hs.2⟩

theorem split_of_plain {s : List Char} (hne : s ≠ []) (h : ∀ c ∈ s, PlainChar c) :
    splitter.split s = [s] := by
  refine (congrArg (wordsFrom none) (roles_of_plain h).1).trans ?_
  exact wordsFrom_none_letters hne

/-- In a text without marks nothing is quoted, so that words end at its blanks. -/
theorem roles_of_no_marks {s : List Char} (h : ∀ r ∈ splitter.roles .bare s, r.1 ≠ .mark) :
    (∀ c ∈ s, c ∉ quotes) ∧
      ∀ r ∈ splitter.roles .bare s, r.1 = .gap ↔ blank r.2 = true := by
  induction s with
  | nil => exact ⟨List.forall_mem_nil _, List.forall_mem_nil _⟩
  | cons c s ih =>
    have hc : c ∉ quotes := fun hquote => h _ List.mem_cons_self (role_quote hquote s)
    have hrole : splitter.role .bare c s = (if blank c then .gap else .letter, .bare) :=
      role_bare hc s
    rw [Splitter.roles, hrole] at h ⊢
    have hs := ih fun r hr => h r (List.mem_cons_of_mem _ hr)
    refine ⟨List.forall_mem_cons.2 ⟨hc, hs.1⟩, List.forall_mem_cons.2 ⟨?_, hs.2⟩⟩
    cases blank c <;> simp

/-! ### Blanks -/

/-- A blank shows the end of the text before it. -/
theorem role_append_blank (rest : List Char) (q : Quoting) (c : Char) (s : List Char) :
    role q c (s ++ ' ' :: rest) = role q c s := by
  cases q with
  | double =>
    cases s with
    | nil => simp [role, escapable]
    | cons d s => rfl
  | _ => rfl

/-- Behind closed quotes a blank ends a word. -/
theorem split_append_blank {s : List Char} (h : splitter.stateAfter .bare s = .bare)
    (rest : List Char) :
    splitter.split (s ++ ' ' :: rest) = splitter.split s ++ splitter.split rest := by
  have hroles : splitter.roles .bare (s ++ ' ' :: rest) =
      splitter.roles .bare s ++ (.gap, ' ') :: splitter.roles .bare rest := by
    rw [splitter.roles_append (role_append_blank rest), h]
    rfl
  exact (congrArg (wordsFrom none) hroles).trans (wordsFrom_append_gap none _ _ ' ')

/-! ### Closed quotes -/

/-- A text without quotes quotes nothing behind it. -/
theorem stateAfter_of_no_quotes {s : List Char} (h : ∀ c ∈ s, c ∉ quotes) (rest : List Char) :
    splitter.stateAfter .bare (s ++ rest) = splitter.stateAfter .bare rest := by
  induction s with
  | nil => rfl
  | cons c s ih =>
    have hrole : splitter.role .bare c (s ++ rest) = (if blank c then .gap else .letter, .bare) :=
      role_bare (h c List.mem_cons_self) (s ++ rest)
    rw [List.cons_append, Splitter.stateAfter, hrole,
      ih fun d hd => h d (List.mem_cons_of_mem c hd)]

theorem Closed.append_left {front text : String} (hfront : Unquoted front) (h : Closed text) :
    Closed (front ++ text) := by
  rw [Closed, String.toList_append, stateAfter_of_no_quotes hfront]
  exact h

theorem Closed.append_blank {text back : String} (h : Closed text) (hback : Unquoted back) :
    Closed (text ++ " " ++ back) := by
  have htext : (text ++ " " ++ back).toList = text.toList ++ ' ' :: back.toList := by simp
  have hblank : ∀ c ∈ ' ' :: back.toList, c ∉ quotes := List.forall_mem_cons.2 ⟨by decide, hback⟩
  have hend := stateAfter_of_no_quotes hblank []
  rw [List.append_nil] at hend
  rw [Closed, htext, splitter.stateAfter_append (role_append_blank back.toList), h, hend]
  rfl

/-! ### Lines that are written word for word -/

/-- Plain words are read back. -/
theorem split_line_of_plain {args : List (List Char)}
    (h : ∀ a ∈ args, a ≠ [] ∧ ∀ c ∈ a, PlainChar c) : splitter.split (line args) = args := by
  induction args with
  | nil => rfl
  | cons a args ih =>
    obtain ⟨hne, hplain⟩ := h a List.mem_cons_self
    cases args with
    | nil => rw [line_singleton, split_of_plain hne hplain]
    | cons b args =>
      rw [line_cons a (List.cons_ne_nil b args), split_append_blank (roles_of_plain hplain).2,
        split_of_plain hne hplain, ih fun w hw => h w (List.mem_cons_of_mem a hw)]
      rfl

theorem split_line_iff {args : List (List Char)} :
    splitter.split (line args) = args ↔ ∀ a ∈ args, a ≠ [] ∧ ∀ c ∈ a, PlainChar c := by
  refine ⟨fun h a ha => ?_, split_line_of_plain⟩
  obtain ⟨hmarks, hblank⟩ := splitter.of_split_line rfl (fun s hs => (roles_of_no_marks hs).2) h
  have hquotes := (roles_of_no_marks hmarks).1
  exact ⟨(hblank a ha).1, fun c hc => ⟨(hblank a ha).2 c hc, hquotes c (mem_line ha hc)⟩⟩

/-- **Words are read back if and only if they are plain.** -/
theorem words_line_iff {args : List String} :
    words (String.intercalate " " args) = args ↔ ∀ a ∈ args, a ≠ "" ∧ Plain a := by
  rw [words, words_intercalate_eq_iff, split_line_iff, List.forall_mem_map]
  simp only [Plain, ne_eq, String.toList_eq_nil_iff]

/-- Behind closed quotes it is the same. -/
theorem words_append_line_iff {front : String} (h : Closed front) {args : List String} :
    words (front ++ " " ++ String.intercalate " " args) = words front ++ args ↔
      ∀ a ∈ args, a ≠ "" ∧ Plain a := by
  have hsplit : words (front ++ " " ++ String.intercalate " " args) =
      words front ++ words (String.intercalate " " args) := by
    have htext : (front ++ " " ++ String.intercalate " " args).toList =
        front.toList ++ ' ' :: (String.intercalate " " args).toList := by
      simp
    rw [words, Splitter.words, htext, split_append_blank h, List.map_append]
    rfl
  rw [hsplit, List.append_cancel_left_eq, words_line_iff]

end FpgaFlow.Shell
