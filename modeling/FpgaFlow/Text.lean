import FpgaFlow.Text.Hidden

/-!
# Cutting and joining text

Texts are handled here as lists of characters. A text is cut at a separator into pieces, of which
there is always at least one (`splitOn`), and putting the pieces back with the separator between
them gives the text again (`intercalate_splitOn`). The first occurrence of a word splits a text in
the part before it and the part after it (`cutAt`), and every occurrence of a word can be replaced,
from left to right and without overlap (`replaceAll`).
-/

namespace FpgaFlow.Text

/-- The pieces of a text between the occurrences of a separator. -/
def splitOn (sep : Char) : List Char → List (List Char)
  | [] => [[]]
  | c :: cs =>
    if c = sep then [] :: splitOn sep cs
    else match splitOn sep cs with
      | [] => [[c]]
      | piece :: pieces => (c :: piece) :: pieces

theorem splitOn_ne_nil (sep : Char) (s : List Char) : splitOn sep s ≠ [] := by
  cases s with
  | nil => simp [splitOn]
  | cons c cs =>
    unfold splitOn
    split
    · simp
    · split <;> simp

/-- The pieces with the separator between them are the text again. -/
theorem intercalate_splitOn (sep : Char) (s : List Char) :
    List.intercalate [sep] (splitOn sep s) = s := by
  induction s with
  | nil => simp [splitOn, List.intercalate]
  | cons c cs ih =>
    unfold splitOn
    split
    next h =>
      subst h
      cases hs : splitOn c cs with
      | nil => exact absurd hs (splitOn_ne_nil c cs)
      | cons p ps =>
        rw [hs] at ih
        simpa [List.intercalate, List.intersperse] using ih
    next h =>
      cases hs : splitOn sep cs with
      | nil => exact absurd hs (splitOn_ne_nil sep cs)
      | cons p ps =>
        rw [hs] at ih
        cases ps with
        | nil => simpa [List.intercalate] using ih
        | cons q qs => simpa [List.intercalate, List.intersperse] using ih

/-- No piece holds the separator. -/
theorem notMem_of_mem_splitOn {sep : Char} {s piece : List Char} (h : piece ∈ splitOn sep s) :
    sep ∉ piece := by
  induction s generalizing piece with
  | nil => simp_all [splitOn]
  | cons c cs ih =>
    unfold splitOn at h
    split at h
    · rcases List.mem_cons.1 h with rfl | h
      · simp
      · exact ih h
    next hc =>
      cases hs : splitOn sep cs with
      | nil => exact absurd hs (splitOn_ne_nil sep cs)
      | cons p ps =>
        rw [hs] at h
        rcases List.mem_cons.1 h with rfl | h
        · have hp : sep ∉ p := ih (by simp [hs])
          simp [Ne.symm hc, hp]
        · exact ih (by simp [hs, h])

theorem splitOn_append_cons (sep : Char) (s t : List Char) :
    splitOn sep (s ++ sep :: t) = splitOn sep s ++ splitOn sep t := by
  induction s with
  | nil => simp [splitOn]
  | cons c cs ih =>
    by_cases hc : c = sep
    · simp [splitOn, hc, ih]
    · cases hs : splitOn sep cs with
      | nil => exact absurd hs (splitOn_ne_nil sep cs)
      | cons p ps => simp [splitOn, hc, ih, hs]

theorem splitOn_of_notMem {sep : Char} {s : List Char} (h : sep ∉ s) : splitOn sep s = [s] := by
  induction s with
  | nil => rfl
  | cons c cs ih =>
    rw [List.mem_cons, not_or] at h
    simp [splitOn, Ne.symm h.1, ih h.2]

/-- A text without the separator makes the last piece longer. -/
theorem splitOn_append_of_notMem {sep : Char} (s : List Char) {t : List Char} (h : sep ∉ t) :
    ∃ front last, splitOn sep s = front ++ [last] ∧
      splitOn sep (s ++ t) = front ++ [last ++ t] := by
  induction s with
  | nil => exact ⟨[], [], rfl, by simpa using splitOn_of_notMem h⟩
  | cons c cs ih =>
    obtain ⟨front, last, hs, hst⟩ := ih
    by_cases hc : c = sep
    · exact ⟨[] :: front, last, by simp [splitOn, hc, hs], by simp [splitOn, hc, hst]⟩
    · cases front with
      | nil => exact ⟨[], c :: last, by simp [splitOn, hc, hs], by simp [splitOn, hc, hst]⟩
      | cons p ps =>
        exact ⟨(c :: p) :: ps, last, by simp [splitOn, hc, hs], by simp [splitOn, hc, hst]⟩

/-- Pieces that do not hold the separator are what a text is cut into that has it between them. -/
theorem splitOn_intercalate {sep : Char} {pieces : List (List Char)} (hne : pieces ≠ [])
    (h : ∀ p ∈ pieces, sep ∉ p) : splitOn sep (List.intercalate [sep] pieces) = pieces := by
  induction pieces with
  | nil => exact absurd rfl hne
  | cons p ps ih =>
    cases ps with
    | nil =>
      simpa [List.intercalate] using splitOn_of_notMem (h p List.mem_cons_self)
    | cons q qs =>
      have htail := ih (by simp) fun r hr => h r (List.mem_cons_of_mem p hr)
      have hjoin : List.intercalate [sep] (p :: q :: qs) =
          p ++ sep :: List.intercalate [sep] (q :: qs) := by
        simp [List.intercalate, List.intersperse]
      rw [hjoin, splitOn_append_cons, htail, splitOn_of_notMem (h p List.mem_cons_self)]
      rfl

/-- The first occurrence of `word`: what stands before it and what stands after it. -/
def cutAt (word : List Char) : List Char → Option (List Char × List Char)
  | [] => if word.isPrefixOf [] then some ([], []) else none
  | c :: cs =>
    if word.isPrefixOf (c :: cs) then some ([], (c :: cs).drop word.length)
    else (cutAt word cs).map fun (before, after) => (c :: before, after)

/-- What is cut is the text. -/
theorem eq_of_cutAt {word s before after : List Char} (h : cutAt word s = some (before, after)) :
    s = before ++ word ++ after := by
  induction s generalizing before after with
  | nil =>
    unfold cutAt at h
    split at h
    next hw => simp_all
    · simp at h
  | cons c cs ih =>
    unfold cutAt at h
    split at h
    next hw =>
      obtain ⟨t, ht⟩ := List.isPrefixOf_iff_prefix.1 hw
      simp only [Option.some.injEq, Prod.mk.injEq] at h
      obtain ⟨rfl, rfl⟩ := h
      simp [← ht]
    · obtain ⟨⟨b, a⟩, hb, he⟩ := Option.map_eq_some_iff.1 h
      simp only [Prod.mk.injEq] at he
      obtain ⟨rfl, rfl⟩ := he
      simp [ih hb]

/-- A text with every occurrence of `word` replaced, `skip` characters of which belong to an
occurrence already replaced. -/
def replaceFrom (word new : List Char) : Nat → List Char → List Char
  | _, [] => []
  | skip + 1, _ :: cs => replaceFrom word new skip cs
  | 0, c :: cs =>
    if word.isPrefixOf (c :: cs) then new ++ replaceFrom word new (word.length - 1) cs
    else c :: replaceFrom word new 0 cs

/-- The text with every occurrence of the non-empty `word` replaced, from left to right. -/
def replaceAll (word new s : String) : String :=
  String.ofList (replaceFrom word.toList new.toList 0 s.toList)

/-- The digits of a number in base sixteen. -/
def hexDigits (n : Nat) : String :=
  String.ofList (Nat.toDigits 16 n)

/-- A character inside quotes: quotes, backslashes and characters that do not show by themselves are
escaped. -/
def quotedChar (c : Char) : String :=
  if c = '"' then "\\\""
  else if c = '\\' then "\\\\"
  else if c = '\n' then "\\n"
  else if c = '\r' then "\\r"
  else if c = '\t' then "\\t"
  else if c.toNat = 0 then "\\0"
  else if isHidden c then
    "\\u\x7b" ++ hexDigits c.toNat ++ "\x7d"
  else c.toString

/-- A text in quotes, as messages show it. -/
def quoted (s : String) : String :=
  "\"" ++ String.join (s.toList.map quotedChar) ++ "\""

/-- The value of a run of decimal digits; `none` on an empty text or on any other character. -/
def digits? : List Char → Option Nat
  | [] => none
  | cs =>
    if cs.all Char.isDigit then some (cs.foldl (fun n c => 10 * n + (c.toNat - 48)) 0) else none

/-- The lower case of ASCII letters; every other character stays. -/
def lowerAscii (s : String) : String :=
  String.ofList (s.toList.map Char.toLower)

end FpgaFlow.Text
