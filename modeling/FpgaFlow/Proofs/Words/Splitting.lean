import Mathlib.Data.List.Basic
import Mathlib.Data.String.Basic

/-!
# Splitting command lines into words

A program that reads commands splits a line into words.  What a character is for the words (`Role`)
depends on what stands before it, of which the program keeps a state, and on what follows: it is
part of a word, or it ends one, or it is a mark, such as a quote, that makes the characters behind
it part of a word but is not part of one itself (`Splitter`).

* `Splitter.wordsFrom_append_gap`: the words before a gap and those behind it are the words.
* `Splitter.of_split_line`: a line that was written word for word with one blank between the words
  is only read back if there is no mark in it.  For every character of the words is a letter of the
  line, so that nothing is left for marks, and the words need all blanks between them.
-/

namespace FpgaFlow

/-- What a character of a command line is for the words. -/
inductive Role where
  | letter
  /-- It is not part of a word, but there is a word where it stands. -/
  | mark
  /-- It ends a word. -/
  | gap
  deriving DecidableEq

/-- How a program splits lines that keeps a state of the characters before. -/
structure Splitter (σ : Type) where
  start : σ
  /-- The role of a character before the rest of a line, and what is kept then. -/
  role : σ → Char → List Char → Role × σ

namespace Splitter

/-- The words of a line, when `begun` is what was read of a word so far. -/
def wordsFrom : Option (List Char) → List (Role × Char) → List (List Char)
  | begun, [] => begun.toList
  | begun, (.letter, c) :: rs => wordsFrom (some (begun.getD [] ++ [c])) rs
  | begun, (.mark, _) :: rs => wordsFrom (some (begun.getD [])) rs
  | begun, (.gap, _) :: rs => begun.toList ++ wordsFrom none rs

variable {σ : Type} (S : Splitter σ)

/-- The characters of a text with their roles. -/
def roles : σ → List Char → List (Role × Char)
  | _, [] => []
  | q, c :: s => ((S.role q c s).1, c) :: roles (S.role q c s).2 s

/-- What is kept of a text. -/
def stateAfter : σ → List Char → σ
  | q, [] => q
  | q, c :: s => stateAfter (S.role q c s).2 s

/-- The words of a line, as lists of characters. -/
def split (line : List Char) : List (List Char) :=
  wordsFrom none (S.roles S.start line)

/-- The words of a line. -/
def words (line : String) : List String :=
  (S.split line.toList).map String.ofList

/-! ### Roles -/

theorem map_snd_roles (q : σ) (s : List Char) : (S.roles q s).map Prod.snd = s := by
  induction s generalizing q with
  | nil => rfl
  | cons c s ih => rw [roles, List.map_cons, ih]

/-- A text before another one is read as it is alone, if its end can be seen. -/
theorem roles_append {rest : List Char} (h : ∀ q c s, S.role q c (s ++ rest) = S.role q c s)
    (q : σ) (s : List Char) :
    S.roles q (s ++ rest) = S.roles q s ++ S.roles (S.stateAfter q s) rest := by
  induction s generalizing q with
  | nil => rfl
  | cons c s ih =>
    rw [List.cons_append, roles, h, ih, roles, stateAfter]
    rfl

theorem stateAfter_append {rest : List Char}
    (h : ∀ q c s, S.role q c (s ++ rest) = S.role q c s) (q : σ) (s : List Char) :
    S.stateAfter q (s ++ rest) = S.stateAfter (S.stateAfter q s) rest := by
  induction s generalizing q with
  | nil => rfl
  | cons c s ih => rw [List.cons_append, stateAfter, h, ih, stateAfter]

/-! ### Words -/

theorem wordsFrom_append_gap (begun : Option (List Char)) (rs rs' : List (Role × Char)) (c : Char) :
    wordsFrom begun (rs ++ (.gap, c) :: rs') = wordsFrom begun rs ++ wordsFrom none rs' := by
  induction rs generalizing begun with
  | nil => rfl
  | cons r rs ih =>
    obtain ⟨role, d⟩ := r
    cases role with
    | letter => exact ih _
    | mark => exact ih _
    | gap => rw [List.cons_append, wordsFrom, ih, wordsFrom, List.append_assoc]

/-- Letters are one word. -/
theorem wordsFrom_letters {rs : List (Role × Char)} (h : ∀ r ∈ rs, r.1 = .letter)
    (word : List Char) : wordsFrom (some word) rs = [word ++ rs.map Prod.snd] := by
  induction rs generalizing word with
  | nil => rw [wordsFrom, List.map_nil, List.append_nil, Option.toList_some]
  | cons r rs ih =>
    obtain ⟨role, c⟩ := r
    obtain rfl : role = .letter := h _ List.mem_cons_self
    have hrest : ∀ r ∈ rs, r.1 = .letter := fun r hr => h r (List.mem_cons_of_mem _ hr)
    rw [wordsFrom, ih hrest, Option.getD_some, List.append_assoc]
    rfl

theorem wordsFrom_none_letters {s : List Char} (hne : s ≠ []) :
    wordsFrom none (s.map fun c => (.letter, c)) = [s] := by
  cases s with
  | nil => exact absurd rfl hne
  | cons c s =>
    rw [List.map_cons, wordsFrom, wordsFrom_letters (List.forall_mem_map.2 fun _ _ => rfl)]
    simp [Function.comp_def]

/-- The letters of a line are the characters of its words. -/
theorem length_flatten_wordsFrom (begun : Option (List Char)) (rs : List (Role × Char)) :
    (wordsFrom begun rs).flatten.length =
      (begun.getD []).length + rs.countP (fun r => r.1 = .letter) := by
  induction rs generalizing begun with
  | nil => cases begun <;> simp [wordsFrom]
  | cons r rs ih =>
    obtain ⟨role, c⟩ := r
    cases role with
    | letter =>
      rw [wordsFrom, ih]
      simp
      omega
    | mark =>
      rw [wordsFrom, ih]
      simp
    | gap =>
      rw [wordsFrom, List.flatten_append, List.length_append, ih]
      cases begun <;> simp

/-- A line has one word more than gaps at most. -/
theorem length_wordsFrom_le (begun : Option (List Char)) (rs : List (Role × Char)) :
    (wordsFrom begun rs).length ≤ rs.countP (fun r => r.1 = .gap) + 1 := by
  have hbegun (begun : Option (List Char)) : begun.toList.length ≤ 1 := by
    cases begun <;> simp
  induction rs generalizing begun with
  | nil => exact (hbegun begun).trans (by omega)
  | cons r rs ih =>
    obtain ⟨role, c⟩ := r
    cases role with
    | letter =>
      rw [wordsFrom, List.countP_cons_of_neg (by simp)]
      exact ih _
    | mark =>
      rw [wordsFrom, List.countP_cons_of_neg (by simp)]
      exact ih _
    | gap =>
      have hlast := hbegun begun
      have hrest := ih none
      rw [wordsFrom, List.length_append, List.countP_cons_of_pos (by simp)]
      omega

/-- Every character has one role. -/
theorem length_eq_countP (rs : List (Role × Char)) :
    rs.length = rs.countP (fun r => r.1 = .letter) + rs.countP (fun r => r.1 = .mark) +
      rs.countP (fun r => r.1 = .gap) := by
  induction rs with
  | nil => rfl
  | cons r rs ih =>
    obtain ⟨role, c⟩ := r
    cases role <;> simp [ih] <;> omega

/-- A word without letters needs a mark. -/
theorem ne_nil_of_mem_wordsFrom {begun : Option (List Char)} {rs : List (Role × Char)}
    (h : ∀ r ∈ rs, r.1 ≠ .mark) (hbegun : begun ≠ some []) :
    ∀ w ∈ wordsFrom begun rs, w ≠ [] := by
  have htoList : ∀ w ∈ begun.toList, w ≠ [] := by
    rintro w hw rfl
    exact hbegun (Option.mem_toList.1 hw)
  induction rs generalizing begun with
  | nil => exact htoList
  | cons r rs ih =>
    obtain ⟨role, c⟩ := r
    have hrest : ∀ r ∈ rs, r.1 ≠ .mark := fun r hr => h r (List.mem_cons_of_mem _ hr)
    cases role with
    | letter => exact ih hrest (by simp) (by simp)
    | mark => exact absurd rfl (h _ List.mem_cons_self)
    | gap =>
      intro w hw
      rcases List.mem_append.1 hw with hw | hw
      · exact htoList w hw
      · exact ih hrest (by simp) (by simp) w hw

/-! ### Lines that are written word for word -/

/-- Words with one blank between them. -/
def line (args : List (List Char)) : List Char :=
  List.intercalate [' '] args

theorem line_cons (a : List Char) {args : List (List Char)} (hne : args ≠ []) :
    line (a :: args) = a ++ ' ' :: line args := by
  rw [line, List.intercalate_cons_of_ne_nil hne, List.append_assoc]
  rfl

theorem line_singleton (a : List Char) : line [a] = a := by
  rw [line, List.intercalate_singleton]

theorem mem_line {args : List (List Char)} {a : List Char} {c : Char} (ha : a ∈ args)
    (hc : c ∈ a) : c ∈ line args := by
  induction args with
  | nil => cases ha
  | cons b args ih =>
    cases args with
    | nil => rwa [line_singleton, ← List.mem_singleton.1 ha]
    | cons d args =>
      rw [line_cons b (List.cons_ne_nil d args), List.mem_append]
      rcases List.mem_cons.1 ha with rfl | ha
      · exact .inl hc
      · exact .inr (List.mem_cons_of_mem ' ' (ih ha))

theorem countP_line {p : Char → Bool} (hp : p ' ' = true) (a : List Char)
    (args : List (List Char)) :
    (line (a :: args)).countP p = (a :: args).flatten.countP p + args.length := by
  induction args generalizing a with
  | nil => simp [line]
  | cons b args ih =>
    rw [line_cons a (List.cons_ne_nil b args), List.countP_append, List.countP_cons_of_pos hp, ih]
    simp only [List.flatten_cons, List.countP_append, List.length_cons]
    omega

/-- **A line is only read back if it has no marks**, and no blanks but those between the words. -/
theorem of_split_line {blank : Char → Bool} (hspace : blank ' ' = true)
    (hgap : ∀ s, (∀ r ∈ S.roles S.start s, r.1 ≠ .mark) →
      ∀ r ∈ S.roles S.start s, r.1 = .gap ↔ blank r.2 = true)
    {args : List (List Char)} (h : S.split (line args) = args) :
    (∀ r ∈ S.roles S.start (line args), r.1 ≠ .mark) ∧
      ∀ a ∈ args, a ≠ [] ∧ ∀ c ∈ a, blank c = false := by
  cases args with
  | nil => exact ⟨fun r hr => (by cases hr), fun a ha => (by cases ha)⟩
  | cons a args =>
    have hwords : wordsFrom none (S.roles S.start (line (a :: args))) = a :: args := h
    have htext := S.map_snd_roles S.start (line (a :: args))
    generalize hrs : S.roles S.start (line (a :: args)) = rs at *
    have hlength : rs.length = (a :: args).flatten.length + args.length := by
      have hcount := countP_line (p := fun _ => true) rfl a args
      rw [List.countP_true] at hcount
      rw [← hcount, ← htext, List.length_map]
    have hletters : (a :: args).flatten.length = rs.countP (fun r => r.1 = .letter) := by
      have hflatten := length_flatten_wordsFrom none rs
      rw [hwords] at hflatten
      simpa using hflatten
    have hgaps : args.length + 1 ≤ rs.countP (fun r => r.1 = .gap) + 1 := by
      have hle := length_wordsFrom_le none rs
      rwa [hwords] at hle
    have htotal := length_eq_countP rs
    have hmarks : rs.countP (fun r => r.1 = .mark) = 0 := by omega
    have hnone : ∀ r ∈ rs, r.1 ≠ .mark := by simpa using hmarks
    refine ⟨hnone, fun w hw => ⟨?_, ?_⟩⟩
    · rw [← hwords] at hw
      exact ne_nil_of_mem_wordsFrom hnone (by simp) w hw
    · have hblanks : (line (a :: args)).countP blank = rs.countP (fun r => r.1 = .gap) := by
        have hiff := hgap (line (a :: args)) (by rwa [hrs])
        rw [hrs] at hiff
        rw [← htext, List.countP_map]
        refine List.countP_congr fun r hr => ?_
        simp [hiff r hr]
      rw [countP_line hspace] at hblanks
      have hflatten : (a :: args).flatten.countP blank = 0 := by omega
      intro c hc
      simpa using List.countP_eq_zero.1 hflatten c (List.mem_flatten.2 ⟨w, hw, hc⟩)

/-- The same of texts. -/
theorem words_intercalate_eq_iff {args : List String} :
    S.words (String.intercalate " " args) = args ↔
      S.split (line (args.map String.toList)) = args.map String.toList := by
  have hline : (String.intercalate " " args).toList = line (args.map String.toList) := by
    rw [String.toList_intercalate]
    rfl
  rw [words, hline]
  constructor
  · intro h
    have htoList := congrArg (List.map String.toList) h
    rw [List.map_map] at htoList
    simpa using htoList
  · intro h
    rw [h, List.map_map]
    simp

end Splitter

end FpgaFlow
