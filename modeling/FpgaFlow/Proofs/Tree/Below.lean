import FpgaFlow.Glob.Search
import FpgaFlow.Proofs.Path.Components
import FpgaFlow.Proofs.Tree.Target

/-!
# Paths below a directory

What is below a directory can be found there only if it is one
(`View.isDirectory_of_exists_child`).  A way below a directory adds its components to
those of the directory (`View.components_down`), and a way of names leads to the location
of the names (`View.find_down`).
-/

namespace FpgaFlow

open FileTree (IsName)

namespace View

/-! ### Paths below a directory -/

theorem below_eq_child {dir : Path} (hdir : dir.Anchored) (name : String) :
    below dir name = dir.child name := by
  have hdot : (⟨"."⟩ : Path).components = [.here] := by decide
  have hsame : dir.same ⟨"."⟩ = false := by
    rw [Path.same, hdot, beq_eq_false_iff_ne]
    intro heq
    exact hdir.head_ne (by rw [heq]; rfl)
  rw [below, hsame]
  rfl

variable {v : View} {dir : Path} {name : String}

theorem start_child (hdir : dir.text ≠ "") (hname : '/' ∉ name.toList) :
    v.start (dir.child name) = v.start dir := by
  rw [start, start, Path.isAbsolute_child_eq hdir hname]

/-- What has something below it is a directory. -/
theorem isDirectory_of_exists_child (hdir : dir.text ≠ "") (hname : '/' ∉ name.toList)
    (h : v.exists_ (dir.child name) = true) : v.isDirectory dir = true := by
  obtain ⟨l, e, hl, -⟩ := exists_iff.1 h
  obtain ⟨-, hwalk, hslash⟩ := resolve_eq_ok_iff.1 hl
  rw [start_child hdir hname, Path.steps_child dir hname, walk_append_eq_ok_iff] at hwalk
  obtain ⟨d, hd, hrest⟩ := hwalk
  have hdirectory : v.tree.lookup d = some .directory := by
    by_cases hne : name = ""
    · rw [if_pos hne, walk_nil, Except.ok.injEq] at hrest
      rw [hrest]
      exact hslash (by rw [Path.endsInSlash_child hdir hname, hne]; rfl)
    · rw [if_neg hne] at hrest
      exact (walk_cons_eq_ok_iff.1 hrest).1
  exact isDirectory_iff.2 ⟨d, resolve_eq_ok_iff.2 ⟨hdir, hd, fun _ => hdirectory⟩, hdirectory⟩

theorem exists_of_isDirectory (h : v.isDirectory dir = true) : v.exists_ dir = true := by
  obtain ⟨l, hl, hdirectory⟩ := isDirectory_iff.1 h
  exact exists_iff.2 ⟨l, _, hl, hdirectory⟩

theorem not_isDirectory_of_isFile (h : v.isFile dir = true) : v.isDirectory dir = false := by
  obtain ⟨l, c, x, hl, he⟩ := isFile_iff.1 h
  rw [isDirectory, find_eq_ok_iff.2 ⟨l, hl, he⟩]

theorem exists_of_isFile (h : v.isFile dir = true) : v.exists_ dir = true := by
  obtain ⟨l, c, x, hl, he⟩ := isFile_iff.1 h
  exact exists_iff.2 ⟨l, _, hl, he⟩

/-- The special names of a directory are there. -/
theorem exists_child_of_special (hdir : dir.text ≠ "") (hname : name = "." ∨ name = "..")
    (h : v.isDirectory dir = true) : v.exists_ (dir.child name) = true := by
  obtain ⟨d, hd, hdirectory⟩ := isDirectory_iff.1 h
  obtain ⟨-, hwalk, -⟩ := resolve_eq_ok_iff.1 hd
  have hslash : '/' ∉ name.toList := by
    rcases hname with rfl | rfl <;> decide
  have hne : name ≠ "" := by
    rcases hname with rfl | rfl <;> decide
  have hthere : v.tree.lookup (step d name) = some .directory := by
    rcases hname with rfl | rfl
    · exact hdirectory
    · exact FileTree.lookup_dropLast (by rw [hdirectory]; simp)
  refine exists_iff.2 ⟨step d name, _, resolve_eq_ok_iff.2 ⟨?_, ?_, fun _ => hthere⟩, hthere⟩
  · exact Path.text_ne_empty_child hdir hslash
  · rw [start_child hdir hslash, Path.steps_child dir hslash, if_neg hne, walk_append_eq_ok_iff]
    exact ⟨d, hwalk, walk_cons_eq_ok_iff.2 ⟨hdirectory, rfl⟩⟩

/-! ### Ways below a directory -/

/-- The path of a way below a directory. -/
def down (dir : Path) (r : Location) : Path :=
  r.foldl below dir

theorem down_cons (hdir : dir.Anchored) (r : Location) :
    down dir (name :: r) = down (dir.child name) r := by
  rw [down, List.foldl_cons, below_eq_child hdir]
  rfl

theorem isAbsolute_down (hdir : dir.isAbsolute = true) (r : Location) :
    (down dir r).isAbsolute = true := by
  induction r generalizing dir with
  | nil => exact hdir
  | cons a r ih =>
    rw [down_cons (Path.anchored_of_isAbsolute hdir)]
    exact ih (Path.isAbsolute_child hdir a)

theorem down_eq_foldl_child (hdir : dir.isAbsolute = true) (r : Location) :
    down dir r = r.foldl Path.child dir := by
  induction r generalizing dir with
  | nil => rfl
  | cons a r ih =>
    rw [down_cons (Path.anchored_of_isAbsolute hdir), List.foldl_cons]
    exact ih (Path.isAbsolute_child hdir a)

section

variable {r : Location} (hdir : dir.Anchored) (hr : ∀ s ∈ r, '/' ∉ s.toList)
include hdir hr

theorem anchored_down : (down dir r).Anchored := by
  induction r generalizing dir with
  | nil => exact hdir
  | cons a r ih =>
    rw [down_cons hdir]
    exact ih (hdir.child (hr a List.mem_cons_self)) fun s hs => hr s (List.mem_cons_of_mem a hs)

theorem isAbsolute_down_eq : (down dir r).isAbsolute = dir.isAbsolute := by
  induction r generalizing dir with
  | nil => rfl
  | cons a r ih =>
    have ha := hr a List.mem_cons_self
    rw [down_cons hdir, ih (hdir.child ha) fun s hs => hr s (List.mem_cons_of_mem a hs),
      Path.isAbsolute_child_eq hdir.text_ne ha]

theorem start_down : v.start (down dir r) = v.start dir := by
  rw [start, start, isAbsolute_down_eq hdir hr]

theorem steps_down : (down dir r).steps = dir.steps ++ r.filter (· ≠ "") := by
  induction r generalizing dir with
  | nil => simp [down]
  | cons a r ih =>
    have ha := hr a List.mem_cons_self
    rw [down_cons hdir, ih (hdir.child ha) fun s hs => hr s (List.mem_cons_of_mem a hs),
      Path.steps_child dir ha, List.append_assoc]
    by_cases hne : a = "" <;> simp [hne]

/-- **A way below a directory adds its components** to those of the directory. -/
theorem components_down :
    (down dir r).components = dir.components ++ r.filterMap Path.componentOf? := by
  induction r generalizing dir with
  | nil => simp [down]
  | cons a r ih =>
    have ha := hr a List.mem_cons_self
    rw [down_cons hdir, ih (hdir.child ha) fun s hs => hr s (List.mem_cons_of_mem a hs),
      Path.components_child hdir.text_ne ha, List.append_assoc]
    cases hc : Path.componentOf? a <;> simp [hc]

theorem endsInSlash_down (hne : r ≠ []) :
    (down dir r).endsInSlash = decide (r.getLast? = some "") := by
  obtain ⟨front, last, rfl⟩ := List.eq_nil_or_concat' r |>.resolve_left hne
  have hfront := anchored_down hdir fun s hs => hr s (List.mem_append_left _ hs)
  rw [down, List.foldl_append, List.foldl_cons, List.foldl_nil, ← down, below_eq_child hfront,
    Path.endsInSlash_child hfront.text_ne (hr last (by simp))]
  simp

/-- **What a way below a directory leads to** is found on a walk from the directory. -/
theorem resolve_down_iff {d l : Location} (hd : v.resolve dir = .ok d) :
    v.resolve (down dir r) = .ok l ↔ walk v.tree d (r.filter (· ≠ "")) = .ok l ∧
      (r.getLast? = some "" → v.tree.lookup l = some .directory) := by
  by_cases hne : r = []
  · subst hne
    simp [down, hd, walk_nil]
  · obtain ⟨-, hwalk, -⟩ := resolve_eq_ok_iff.1 hd
    rw [resolve_eq_ok_iff, start_down hdir hr, steps_down hdir hr, endsInSlash_down hdir hr hne,
      walk_append_eq_ok_iff, hwalk, decide_eq_true_iff]
    simp [(anchored_down hdir hr).text_ne]

theorem isDirectory_of_exists_down (hne : r ≠ []) (h : v.exists_ (down dir r) = true) :
    v.isDirectory dir = true := by
  induction r generalizing dir with
  | nil => exact absurd rfl hne
  | cons a r ih =>
    have ha := hr a List.mem_cons_self
    rw [down_cons hdir] at h
    refine isDirectory_of_exists_child hdir.text_ne ha ?_
    cases r with
    | nil => exact h
    | cons b r =>
      exact exists_of_isDirectory (ih (hdir.child ha)
        (fun s hs => hr s (List.mem_cons_of_mem a hs)) (List.cons_ne_nil b r) h)

end

/-! ### Ways of names -/

theorem slash_notMem_of_names {r : Location} (hr : ∀ s ∈ r, IsName s) :
    ∀ s ∈ r, '/' ∉ s.toList :=
  fun s hs => (hr s hs).2.2.2

theorem filter_of_names {r : Location} (hr : ∀ s ∈ r, IsName s) : r.filter (· ≠ "") = r :=
  List.filter_eq_self.2 fun s hs => decide_eq_true (hr s hs).1

theorem eq_of_walk_names {t : FileTree} {d l : Location} {r : Location} (hr : ∀ s ∈ r, IsName s)
    (h : walk t d r = .ok l) : l = d ++ r := by
  induction r generalizing d with
  | nil =>
    rw [walk_nil, Except.ok.injEq] at h
    simp [h]
  | cons a r ih =>
    have hrest := (walk_cons_eq_ok_iff.1 h).2
    rw [step_of_isName (hr a List.mem_cons_self)] at hrest
    rw [ih (fun s hs => hr s (List.mem_cons_of_mem _ hs)) hrest, List.append_assoc]
    rfl

theorem lookup_of_append {t : FileTree} {d r : Location} (h : (t.lookup (d ++ r)).isSome = true) :
    (t.lookup d).isSome = true := by
  induction r using List.reverseRecOn with
  | nil => simpa using h
  | append_singleton r a ih =>
    refine ih ?_
    have hne : t.lookup (d ++ (r ++ [a])) ≠ none := by
      rw [← Option.isSome_iff_ne_none]
      exact h
    have hdrop := FileTree.lookup_dropLast hne
    rw [← List.append_assoc, List.dropLast_concat] at hdrop
    simp [hdrop]

/-- What has something below it is a directory. -/
theorem directory_of_append {t : FileTree} {d r : Location} (hr : r ≠ [])
    (h : (t.lookup (d ++ r)).isSome = true) : t.lookup d = some .directory := by
  cases r with
  | nil => exact absurd rfl hr
  | cons a r =>
    have hfirst : (t.lookup (d ++ [a])).isSome = true :=
      lookup_of_append (r := r) (by simpa using h)
    have hdrop := FileTree.lookup_dropLast (Option.isSome_iff_ne_none.1 hfirst)
    rwa [List.dropLast_concat] at hdrop

theorem walk_of_lookup {t : FileTree} {d r : Location} (hd : t.lookup d = some .directory)
    (h : (t.lookup (d ++ r)).isSome = true) : walk t d r = .ok (d ++ r) := by
  induction r generalizing d with
  | nil => simp [walk_nil]
  | cons a r ih =>
    have hsplit : d ++ a :: r = (d ++ [a]) ++ r := by simp
    rw [hsplit] at h
    have hname : IsName a := by
      refine FileTree.isName_of_lookup (t := t) (Option.isSome_iff_ne_none.1 h) ?_
      simp
    rw [walk_cons_eq_ok_iff, step_of_isName hname, hsplit]
    refine ⟨hd, ?_⟩
    cases r with
    | nil => simp [walk_nil]
    | cons b r => exact ih (directory_of_append (List.cons_ne_nil b r) h) h

theorem eq_of_resolve_down (hdir : dir.Anchored) {r d l : Location} (hr : ∀ s ∈ r, IsName s)
    (hd : v.resolve dir = .ok d) (hl : v.resolve (down dir r) = .ok l) : l = d ++ r := by
  obtain ⟨hwalk, -⟩ := (resolve_down_iff hdir (slash_notMem_of_names hr) hd).1 hl
  rw [filter_of_names hr] at hwalk
  exact eq_of_walk_names hr hwalk

/-- **A way of names below a directory** leads to the location of the names. -/
theorem find_down (hdir : dir.Anchored) {r d : Location} (hr : ∀ s ∈ r, IsName s)
    (hd : v.resolve dir = .ok d) (hdirectory : v.tree.lookup d = some .directory) {e : Entry} :
    v.find (down dir r) = .ok e ↔ v.tree.lookup (d ++ r) = some e := by
  rw [find_eq_ok_iff]
  constructor
  · rintro ⟨l, hl, he⟩
    rw [← eq_of_resolve_down hdir hr hd hl]
    exact he
  · intro he
    have hslash := slash_notMem_of_names hr
    refine ⟨d ++ r, (resolve_down_iff hdir hslash hd).2 ⟨?_, fun hlast => ?_⟩, he⟩
    · rw [filter_of_names hr]
      exact walk_of_lookup hdirectory (by rw [he]; rfl)
    · exact absurd rfl (hr "" (List.mem_of_getLast? hlast)).1

theorem exists_down (hdir : dir.Anchored) {r d : Location} (hr : ∀ s ∈ r, IsName s)
    (hd : v.resolve dir = .ok d) (hdirectory : v.tree.lookup d = some .directory) :
    v.exists_ (down dir r) = (v.tree.lookup (d ++ r)).isSome := by
  rw [Bool.eq_iff_iff, exists_iff, Option.isSome_iff_exists]
  constructor
  · rintro ⟨l, e, hl⟩
    exact ⟨e, (find_down hdir hr hd hdirectory).1 (find_eq_ok_iff.2 ⟨l, hl⟩)⟩
  · rintro ⟨e, he⟩
    obtain ⟨l, hl⟩ := find_eq_ok_iff.1 ((find_down hdir hr hd hdirectory).2 he)
    exact ⟨l, e, hl⟩

end View

end FpgaFlow
