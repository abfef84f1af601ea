import FpgaFlow.Proofs.Path.Steps

/-!
# Parents of locations

The parent of the path of a location is the path of the location above
(`Path.parent?_ofLocation_concat`), so that the ancestors of a location are met one
name at a time (`Path.ancestors_ofLocation_concat`).
-/

namespace FpgaFlow.Path

open FileTree (IsName)

theorem toList_ofLocation (l : Location) :
    (ofLocation l).text.toList = '/' :: List.intercalate ['/'] (l.map String.toList) := by
  rw [ofLocation, String.toList_append, String.toList_intercalate]
  rfl

variable {l : Location} {name : String}

theorem pieces_ofLocation (h : ∀ s ∈ l, IsName s) (hne : l ≠ []) :
    (ofLocation l).pieces = "" :: l := by
  have hslash : ∀ p ∈ l.map String.toList, '/' ∉ p := by
    intro p hp
    obtain ⟨s, hs, rfl⟩ := List.mem_map.1 hp
    exact (h s hs).2.2.2
  have hmap : l.map String.toList ≠ [] := by simpa using hne
  rw [pieces, toList_ofLocation]
  simp [Text.splitOn, Text.splitOn_intercalate hmap hslash]

/-- Nothing is dropped at the end of names. -/
theorem dropBlankEnd_of_isName (h : ∀ s ∈ l, IsName s) : dropBlankEnd l = l := by
  rcases List.eq_nil_or_concat' l with rfl | ⟨front, last, rfl⟩
  · rfl
  · obtain ⟨hempty, hdot, -⟩ := h last (by simp)
    rw [dropBlankEnd, List.reverse_append, List.reverse_singleton, List.singleton_append,
      List.dropWhile_cons_of_neg (by simp [hempty, hdot])]
    simp

/-- **The parent of a location is the location above it.** -/
theorem parent?_ofLocation_concat (h : ∀ s ∈ l ++ [name], IsName s) :
    (ofLocation (l ++ [name])).parent? = some (ofLocation l) := by
  have hfront : ∀ s ∈ l, IsName s := fun s hs => h s (List.mem_append_left _ hs)
  have hdrop : dropLastPiece? (l ++ [name]) = some l := by
    rw [dropLastPiece?, dropBlankEnd_of_isName h]
    cases hl : l ++ [name] with
    | nil => simp at hl
    | cons s rest =>
      dsimp only
      rw [← hl, List.dropLast_concat, dropBlankEnd_of_isName hfront]
  rw [parent?, pieces_ofLocation h (by simp)]
  show (dropLastPiece? (l ++ [name])).map _ = _
  rw [hdrop]
  rfl

theorem parent?_root : (ofLocation []).parent? = none := by
  decide

theorem ancestorsFrom_root (n : Nat) : ancestorsFrom n (ofLocation []) = [ofLocation []] := by
  cases n with
  | zero => rfl
  | succ n => rw [ancestorsFrom, parent?_root]

theorem ancestors_root : (ofLocation []).ancestors = [ofLocation []] :=
  ancestorsFrom_root _

theorem ancestors_ofLocation_concat (h : ∀ s ∈ l ++ [name], IsName s) :
    (ofLocation (l ++ [name])).ancestors =
      ofLocation (l ++ [name]) :: (ofLocation l).ancestors := by
  rw [ancestors, pieces_ofLocation h (by simp), List.length_cons, ancestorsFrom,
    parent?_ofLocation_concat h]
  dsimp only
  rcases List.eq_nil_or_concat' l with rfl | ⟨front, last, rfl⟩
  · rw [ancestors_root, ancestorsFrom_root]
  · have hfront : ∀ s ∈ front ++ [last], IsName s := fun s hs => h s (List.mem_append_left _ hs)
    have hlength : (front ++ [last] ++ [name]).length = ("" :: (front ++ [last])).length := by
      simp
    rw [ancestors, pieces_ofLocation hfront (by simp), hlength]

end FpgaFlow.Path
