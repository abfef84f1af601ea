import FpgaFlow.Text
import Mathlib.Data.List.Basic
import Mathlib.Data.String.Basic

/-!
# The lines of a text

A text is cut into lines at the ends of lines.  Lines that were written one after the
other can be read back, provided that none of them has the end of a line in it
(`lines_join`), and leaving out some of them leaves the others as they were written
(`withoutLines_join`).
-/

namespace FpgaFlow

namespace Text

/-- The lines of a text. After the last end of a line there is one more, if anything follows. -/
def lines (text : String) : List (List Char) :=
  let pieces := splitOn '\n' text.toList
  if pieces.getLast? = some [] then pieces.dropLast else pieces

/-- A text between others stands before each of them but the first. -/
theorem intercalate_cons (glue first : String) (rest : List String) :
    String.intercalate glue (first :: rest) =
      first ++ String.join (rest.map fun s => glue ++ s) := by
  induction rest generalizing first with
  | nil => simp
  | cons second rest ih =>
    rw [String.intercalate_cons_of_ne_nil (List.cons_ne_nil second rest), ih, List.map_cons,
      String.join_cons, String.append_assoc, String.append_assoc]

/-! ### Lines that were written one after the other -/

/-- Texts of one line each. -/
theorem join_map {α : Type} {text line : α → String} (h : ∀ a, text a = line a ++ "\n")
    (as : List α) :
    String.join (as.map text) = String.join ((as.map line).map fun l => l ++ "\n") := by
  rw [List.map_map, List.map_congr_left fun a _ => h a]
  rfl

/-- Texts of several lines each. -/
theorem join_flatMap {α : Type} {text : α → String} {ls : α → List String}
    (h : ∀ a, text a = String.join ((ls a).map fun l => l ++ "\n")) (as : List α) :
    String.join (as.map text) = String.join ((as.flatMap ls).map fun l => l ++ "\n") := by
  induction as with
  | nil => rfl
  | cons a as ih =>
    rw [List.map_cons, String.join_cons, h a, ih, List.flatMap_cons, List.map_append,
      String.join_append]

/-- The end of a line is where a text is cut. -/
theorem splitOn_newline (s t : String) :
    splitOn '\n' (s ++ "\n" ++ t).toList = splitOn '\n' s.toList ++ splitOn '\n' t.toList := by
  rw [← splitOn_append_cons]
  simp

theorem splitOn_join {ls : List String} (h : ∀ l ∈ ls, '\n' ∉ l.toList) (t : String) :
    splitOn '\n' (String.join (ls.map fun l => l ++ "\n") ++ t).toList =
      ls.map String.toList ++ splitOn '\n' t.toList := by
  induction ls with
  | nil => rw [List.map_nil, String.join_nil, String.empty_append, List.map_nil, List.nil_append]
  | cons l ls ih =>
    have hrest : ∀ l' ∈ ls, '\n' ∉ l'.toList := fun l' hl' => h l' (List.mem_cons_of_mem l hl')
    rw [List.map_cons, String.join_cons, String.append_assoc, splitOn_newline,
      splitOn_of_notMem (h l List.mem_cons_self), ih hrest]
    rfl

/-- Pieces before a text are lines before its lines. -/
theorem lines_of_splitOn {s t : String} {pieces : List (List Char)}
    (h : splitOn '\n' s.toList = pieces ++ splitOn '\n' t.toList) :
    lines s = pieces ++ lines t := by
  have hne : splitOn '\n' t.toList ≠ [] := splitOn_ne_nil '\n' t.toList
  rw [lines, lines, h, List.getLast?_append_of_ne_nil _ hne]
  split
  · rw [List.dropLast_append_of_ne_nil hne]
  · rfl

/-- Up to the end of a line a text has the lines that it has alone. -/
theorem lines_append (s t : String) : lines (s ++ "\n" ++ t) = splitOn '\n' s.toList ++ lines t :=
  lines_of_splitOn (splitOn_newline s t)

theorem lines_cons {s : String} (hs : '\n' ∉ s.toList) (t : String) :
    lines (s ++ "\n" ++ t) = s.toList :: lines t := by
  rw [lines_append, splitOn_of_notMem hs]
  rfl

theorem lines_single {s : String} (hs : '\n' ∉ s.toList) (hne : s.toList ≠ []) :
    lines s = [s.toList] := by
  have hlast : [s.toList].getLast? ≠ some [] := by simpa using hne
  rw [lines, splitOn_of_notMem hs]
  exact if_neg hlast

/-- **Lines that were written one after the other can be read back.** -/
theorem lines_join {α : Type} {line written : α → String} {as : List α}
    (hwritten : ∀ a, written a = line a ++ "\n") (h : ∀ a ∈ as, '\n' ∉ (line a).toList)
    (t : String) :
    lines (String.join (as.map written) ++ t) = as.map (fun a => (line a).toList) ++ lines t := by
  have hlines : ∀ l ∈ as.map line, '\n' ∉ l.toList := by
    intro l hl
    obtain ⟨a, ha, rfl⟩ := List.mem_map.1 hl
    exact h a ha
  rw [join_map hwritten, lines_of_splitOn (splitOn_join hlines t), List.map_map]
  rfl

/-! ### Leaving out lines -/

/-- A text without some of its lines. -/
def withoutLines (p : List Char → Bool) (text : String) : String :=
  String.ofList (List.intercalate ['\n'] ((splitOn '\n' text.toList).filter fun l => !p l))

/-- **The lines that stay are as they were written.** -/
theorem withoutLines_join {p : List Char → Bool} {ls : List String}
    (h : ∀ l ∈ ls, '\n' ∉ l.toList) (hp : p [] = false) :
    withoutLines p (String.join (ls.map fun l => l ++ "\n")) =
      String.join ((ls.filter fun l => !p l.toList).map fun l => l ++ "\n") := by
  have hkept : ∀ l ∈ ls.filter fun l => !p l.toList, '\n' ∉ l.toList := by
    intro l hl
    exact h l (List.mem_of_mem_filter hl)
  have hlast : [[]].filter (fun l => !p l) = [[]] := by
    rw [List.filter_cons_of_pos (by simpa using hp), List.filter_nil]
  have hpieces {ks : List String} (hks : ∀ l ∈ ks, '\n' ∉ l.toList) :
      splitOn '\n' (String.join (ks.map fun l => l ++ "\n")).toList =
        ks.map String.toList ++ [[]] := by
    have hsplit := splitOn_join hks ""
    rwa [String.append_empty] at hsplit
  rw [withoutLines, hpieces h, List.filter_append, List.filter_map, hlast, ← String.toList_inj,
    String.toList_ofList]
  exact (congrArg _ (hpieces hkept).symm).trans (intercalate_splitOn '\n' _)

/-! ### Characters that a text does not have -/

/-- A number is written with digits only. -/
theorem notMem_toString {c : Char} (hc : c.isDigit = false) (n : Nat) :
    c ∉ (toString n).toList := by
  intro h
  rw [Nat.toString_eq_repr, Nat.toList_repr] at h
  have hdigit : c.isDigit = true := Nat.isDigit_of_mem_toDigits (by decide) (by decide) h
  rw [hc] at hdigit
  cases hdigit

end Text

theorem newline_notMem_append {s t : String} (hs : '\n' ∉ s.toList) (ht : '\n' ∉ t.toList) :
    '\n' ∉ (s ++ t).toList := by
  rw [String.toList_append, List.mem_append, not_or]
  exact ⟨hs, ht⟩

end FpgaFlow
