import FpgaFlow.Proofs.Path.Order
import FpgaFlow.Proofs.Tree.Growth

/-!
# Listings of growing trees

The names in a directory come in ascending order.  When a tree grows they are
joined by new ones and keep their order, so that the names of the smaller tree are
those of the larger tree that it has itself (`FileTree.names_of_grows`), and so it is
with everything below a directory (`FileTree.locations_of_grows`).
-/

namespace FpgaFlow

namespace FileTree

/-- The locations of a tree, in ascending order. -/
def keys (t : FileTree) : List Location :=
  t.entries.map Prod.fst

/-- What is left of a location that is strictly below another one. -/
def inside? (base l : Location) : Option Location :=
  match below? base l with
  | some [] | none => none
  | some rest => some rest

theorem inside?_eq_some_iff {base l rest : Location} :
    inside? base l = some rest ↔ l = base ++ rest ∧ rest ≠ [] := by
  rw [inside?, ← below?_eq_some_iff]
  cases hb : below? base l with
  | none => simp
  | some r =>
    cases r with
    | nil =>
      simp only [Option.some.injEq]
      constructor
      · intro h
        cases h
      · rintro ⟨rfl, hne⟩
        exact absurd rfl hne
    | cons a as =>
      simp only [Option.some.injEq]
      constructor
      · rintro rfl
        exact ⟨rfl, List.cons_ne_nil a as⟩
      · exact fun h => h.1

theorem mem_keys {t : FileTree} {l : Location} :
    l ∈ t.keys ↔ l ≠ [] ∧ (t.lookup l).isSome = true := by
  rw [keys, List.mem_map, Option.isSome_iff_exists]
  constructor
  · rintro ⟨⟨m, e⟩, hmem, rfl⟩
    have hne : m ≠ [] := (t.rooted _ hmem).1
    exact ⟨hne, e, (lookup_eq_some_iff hne).2 hmem⟩
  · rintro ⟨hne, e, he⟩
    exact ⟨(l, e), (lookup_eq_some_iff hne).1 he, rfl⟩

theorem ascending_keys (t : FileTree) : t.keys.Pairwise fun l m => compare l m = .lt :=
  List.pairwise_map.2 t.ascending

variable {s t : FileTree}

theorem Grows.isSome (h : s.Grows t) {l : Location} (hl : (s.lookup l).isSome = true) :
    (t.lookup l).isSome = true := by
  obtain ⟨e, he⟩ := Option.isSome_iff_exists.1 hl
  obtain ⟨f, hf, -⟩ := h l e he
  rw [hf]
  rfl

theorem keys_of_grows (h : s.Grows t) :
    s.keys = t.keys.filter fun l => (s.lookup l).isSome := by
  refine eq_of_ascending s.ascending_keys (t.ascending_keys.filter _) fun l => ?_
  rw [List.mem_filter, mem_keys, mem_keys]
  constructor
  · rintro ⟨hne, hl⟩
    exact ⟨⟨hne, h.isSome hl⟩, hl⟩
  · rintro ⟨⟨hne, -⟩, hl⟩
    exact ⟨hne, hl⟩

/-- What is below a location, with what is left of the locations. -/
theorem contents_eq (t : FileTree) (l : Location) :
    t.contents l = t.entries.filterMap fun m => (inside? l m.1).map fun r => (r, m.2) := by
  rw [contents]
  congr 1
  funext ⟨m, e⟩
  simp only [inside?]
  cases below? l m with
  | none => rfl
  | some r =>
    cases r with
    | nil => rfl
    | cons a as => rfl

theorem map_fst_contents (t : FileTree) (l : Location) :
    (t.contents l).map Prod.fst = t.keys.filterMap (inside? l) := by
  rw [contents_eq, keys, List.map_filterMap, List.filterMap_map]
  congr 1
  funext m
  exact (Option.map_map _ _ _).trans Option.map_id'

theorem mem_contents {l r : Location} {e : Entry} :
    (r, e) ∈ t.contents l ↔ r ≠ [] ∧ t.lookup (l ++ r) = some e := by
  rw [contents_eq, List.mem_filterMap]
  constructor
  · rintro ⟨⟨m, f⟩, hmem, h⟩
    obtain ⟨r', hinside, heq⟩ := Option.map_eq_some_iff.1 h
    cases heq
    obtain ⟨rfl, hr⟩ := inside?_eq_some_iff.1 hinside
    exact ⟨hr, (lookup_eq_some_iff (by simp [hr])).2 hmem⟩
  · rintro ⟨hr, h⟩
    refine ⟨(l ++ r, e), (lookup_eq_some_iff (by simp [hr])).1 h, ?_⟩
    rw [inside?_eq_some_iff.2 ⟨rfl, hr⟩]
    rfl

theorem mem_map_fst_contents {l r : Location} :
    r ∈ (t.contents l).map Prod.fst ↔ r ≠ [] ∧ (t.lookup (l ++ r)).isSome = true := by
  rw [List.mem_map, Option.isSome_iff_exists]
  constructor
  · rintro ⟨⟨_, e⟩, hmem, rfl⟩
    obtain ⟨hr, he⟩ := mem_contents.1 hmem
    exact ⟨hr, e, he⟩
  · rintro ⟨hr, e, he⟩
    exact ⟨(r, e), mem_contents.2 ⟨hr, he⟩, rfl⟩

theorem filterMap_filter_of {α β : Type} {f : α → Option β} {P : α → Bool} {Q : β → Bool}
    (h : ∀ a b, f a = some b → P a = Q b) (as : List α) :
    (as.filter P).filterMap f = (as.filterMap f).filter Q := by
  rw [List.filterMap_filter, List.filter_filterMap]
  congr 1
  funext a
  cases hf : f a with
  | none => simp
  | some b =>
    rw [h a b hf]
    simp [Option.filter]

/-- **What was below a location** is what the smaller tree has of what is below it now. -/
theorem locations_of_grows (h : s.Grows t) (l : Location) :
    (s.contents l).map Prod.fst =
      ((t.contents l).map Prod.fst).filter fun r => (s.lookup (l ++ r)).isSome := by
  rw [map_fst_contents, map_fst_contents, keys_of_grows h]
  refine filterMap_filter_of (fun m r hm => ?_) t.keys
  rw [(inside?_eq_some_iff.1 hm).1]

/-- The name of something that is directly below a location. -/
def name? : Location → Option String
  | [name] => some name
  | _ => none

theorem name?_eq_some_iff {r : Location} {name : String} : name? r = some name ↔ r = [name] := by
  cases r with
  | nil => simp [name?]
  | cons a as =>
    cases as with
    | nil => simp [name?]
    | cons b bs => simp [name?]

theorem names_eq (t : FileTree) (l : Location) :
    t.names l = ((t.contents l).map Prod.fst).filterMap name? := by
  rw [names, List.filterMap_map]
  congr 1

theorem mem_names {l : Location} {name : String} :
    name ∈ t.names l ↔ (t.lookup (l ++ [name])).isSome = true := by
  rw [names_eq, List.mem_filterMap]
  simp only [name?_eq_some_iff, mem_map_fst_contents]
  constructor
  · rintro ⟨r, ⟨-, hr⟩, rfl⟩
    exact hr
  · intro h
    exact ⟨[name], ⟨List.cons_ne_nil _ _, h⟩, rfl⟩

/-- **The names that were in a directory** are those that the smaller tree has of its names now. -/
theorem names_of_grows (h : s.Grows t) (l : Location) :
    s.names l = (t.names l).filter fun name => (s.lookup (l ++ [name])).isSome := by
  rw [names_eq, names_eq, locations_of_grows h]
  refine filterMap_filter_of (fun r name hr => ?_) _
  rw [name?_eq_some_iff.1 hr]

end FileTree

end FpgaFlow
