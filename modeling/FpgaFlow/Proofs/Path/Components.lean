import FpgaFlow.Proofs.Path.Steps

/-!
# The components of composed paths

A name below a path adds one component to those of the path, or none
(`Path.components_child`).  The first component tells from where a path leads: a path is
anchored (`Path.Anchored`) if it does not begin with the special name of the directory
it is read in.
-/

namespace FpgaFlow.Path

open Text (splitOn)

variable {p q : Path} {name : String}

/-! ### One name -/

theorem isAbsolute_of_slash_notMem (h : '/' ∉ name.toList) :
    (⟨name⟩ : Path).isAbsolute = false := by
  rw [Bool.eq_false_iff]
  intro habs
  obtain ⟨rest, hrest⟩ := isAbsolute_eq_true_iff.1 habs
  exact h (by simp [hrest])

theorem steps_of_slash_notMem (h : '/' ∉ name.toList) :
    (⟨name⟩ : Path).steps = if name = "" then [] else [name] := by
  rw [steps_eq_words, words, Text.splitOn_of_notMem h]
  split
  next hne => simp [hne]
  next hne => simp [toList_ne_nil hne]

theorem steps_child (p : Path) (h : '/' ∉ name.toList) :
    (p.child name).steps = p.steps ++ if name = "" then [] else [name] := by
  rw [child, steps_join p (isAbsolute_of_slash_notMem h), steps_of_slash_notMem h]

theorem text_ne_empty_child (hp : p.text ≠ "") (h : '/' ∉ name.toList) :
    (p.child name).text ≠ "" := by
  obtain ⟨front, hjoin, -⟩ := toList_join (q := ⟨name⟩) (isAbsolute_of_slash_notMem h) hp
  intro he
  rw [← child, he] at hjoin
  simp at hjoin

theorem endsInSlash_child (hp : p.text ≠ "") (h : '/' ∉ name.toList) :
    (p.child name).endsInSlash = decide (name = "") := by
  obtain ⟨front, hjoin, -⟩ := toList_join (q := ⟨name⟩) (isAbsolute_of_slash_notMem h) hp
  rw [endsInSlash, child, hjoin]
  by_cases hne : name = ""
  · simp [hne]
  · cases hlast : name.toList.getLast? with
    | none => exact absurd (List.getLast?_eq_none_iff.1 hlast) (toList_ne_nil hne)
    | some c =>
      have hc : c ≠ '/' := fun heq => h (heq ▸ List.mem_of_getLast? hlast)
      simp [List.getLast?_cons, hlast, hne, hc]

theorem isAbsolute_child_eq (hp : p.text ≠ "") (h : '/' ∉ name.toList) :
    (p.child name).isAbsolute = p.isAbsolute := by
  obtain ⟨front, hjoin, hfront⟩ := toList_join (q := ⟨name⟩) (isAbsolute_of_slash_notMem h) hp
  rw [child, isAbsolute, isAbsolute, hjoin]
  rcases hfront with hfront | hfront
  all_goals
    rw [hfront]
    cases front with
    | nil => simp_all
    | cons c front => rfl

/-! ### Components -/

theorem exists_pieces_eq (p : Path) : ∃ first rest, p.pieces = first :: rest := by
  cases h : p.pieces with
  | nil => exact absurd (List.map_eq_nil_iff.1 h) (Text.splitOn_ne_nil '/' _)
  | cons first rest => exact ⟨first, rest, rfl⟩

theorem pieces_of_slash_notMem (h : '/' ∉ name.toList) : (⟨name⟩ : Path).pieces = [name] := by
  rw [pieces, Text.splitOn_of_notMem h]
  simp

/-- A name below a path is its last piece; the path itself has the pieces before that, and perhaps a
slash at its end. -/
theorem pieces_child (hp : p.text ≠ "") (h : '/' ∉ name.toList) :
    ∃ first rest, (p.child name).pieces = first :: (rest ++ [name]) ∧
      (p.pieces = first :: rest ∨ p.pieces = first :: (rest ++ [""])) := by
  obtain ⟨front, hjoin, hfront⟩ := toList_join (q := ⟨name⟩) (isAbsolute_of_slash_notMem h) hp
  obtain ⟨first, rest, hpieces⟩ := exists_pieces_eq ⟨String.ofList front⟩
  rw [pieces, String.toList_ofList] at hpieces
  refine ⟨first, rest, ?_, hfront.imp (fun h => ?_) fun h => ?_⟩
  · rw [pieces, child, hjoin, Text.splitOn_append_cons, List.map_append, hpieces,
      Text.splitOn_of_notMem h]
    simp
  · rw [pieces, h, hpieces]
  · rw [pieces, h, Text.splitOn_append_cons, List.map_append, hpieces]
    rfl

/-- The component that the first piece of a path stands for. -/
def firstComponent? (s : String) : Option Component :=
  if s = "" then some .root else if s = "." then some .here else componentOf? s

theorem componentOf?_eq_none_iff : componentOf? name = none ↔ name = "" ∨ name = "." := by
  rw [componentOf?.eq_def]
  split <;> simp_all

theorem components_of_pieces (hp : p.text ≠ "") {first : String} {rest : List String}
    (h : p.pieces = first :: rest) :
    p.components = (firstComponent? first).toList ++ rest.filterMap componentOf? := by
  have hrest : first = "" → rest.isEmpty = false := by
    rintro rfl
    cases rest with
    | cons => rfl
    | nil =>
      have hjoin := Text.intercalate_splitOn '/' p.text.toList
      obtain ⟨piece, hpiece, hempty⟩ := List.map_eq_singleton_iff.1 h
      have hnil : piece = [] := by simpa using congrArg String.toList hempty
      rw [hpiece, hnil] at hjoin
      exact absurd hjoin.symm (toList_ne_nil hp)
  rw [components, h, firstComponent?]
  by_cases hempty : first = ""
  · simp [hempty, hrest hempty]
  · by_cases hdot : first = "." <;> simp [hempty, hdot]

theorem components_ne_nil (hp : p.text ≠ "") : p.components ≠ [] := by
  obtain ⟨first, rest, hpieces⟩ := exists_pieces_eq p
  rw [components_of_pieces hp hpieces, firstComponent?]
  split
  next => simp
  next hempty =>
    split
    next => simp
    next hdot =>
      have hsome : componentOf? first ≠ none := by simp [componentOf?_eq_none_iff, hempty, hdot]
      obtain ⟨c, hc⟩ := Option.ne_none_iff_exists'.1 hsome
      simp [hc]

/-- **A name below a path adds its component** to those of the path. -/
theorem components_child (hp : p.text ≠ "") (h : '/' ∉ name.toList) :
    (p.child name).components = p.components ++ (componentOf? name).toList := by
  obtain ⟨first, rest, hchild, hpieces⟩ := pieces_child hp h
  rw [components_of_pieces (text_ne_empty_child hp h) hchild, List.filterMap_append,
    ← List.append_assoc]
  have hempty : [""].filterMap componentOf? = [] := rfl
  have hname : [name].filterMap componentOf? = (componentOf? name).toList := by
    cases hc : componentOf? name <;> simp [hc]
  rcases hpieces with hpieces | hpieces
  · rw [components_of_pieces hp hpieces, hname]
  · rw [components_of_pieces hp hpieces, List.filterMap_append, hempty, List.append_nil, hname]

/-! ### Where paths begin -/

/-- A path that begins with the root, with `..` or with a name. -/
structure Anchored (p : Path) : Prop where
  text_ne : p.text ≠ ""
  head_ne : p.components.head? ≠ some .here

theorem anchored_of_isAbsolute (h : p.isAbsolute = true) : p.Anchored := by
  have hne := text_ne_empty_of_isAbsolute h
  obtain ⟨rest, hrest⟩ := isAbsolute_eq_true_iff.1 h
  have hpieces : p.pieces = "" :: (splitOn '/' rest).map String.ofList := by
    simp [pieces, hrest, splitOn]
  refine ⟨hne, ?_⟩
  rw [components_of_pieces hne hpieces]
  simp [firstComponent?]

theorem Anchored.child (hp : p.Anchored) (h : '/' ∉ name.toList) : (p.child name).Anchored := by
  refine ⟨text_ne_empty_child hp.text_ne h, ?_⟩
  rw [components_child hp.text_ne h, List.head?_append_of_ne_nil _ (components_ne_nil hp.text_ne)]
  exact hp.head_ne

end FpgaFlow.Path
