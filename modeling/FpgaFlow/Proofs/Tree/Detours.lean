import FpgaFlow.Proofs.Tree.Below
import FpgaFlow.Proofs.Tree.Listing
import Mathlib.Data.List.Infix

/-!
# What a look below a path depends on

A path leads through its stops (`Path.stops`) to its location, and it leads to a
directory when all stops are directories (`View.isDirectory_iff_stops`).  The stops
that it leaves again by `..` are its detours.  All other stops are above the location,
so that they are directories as soon as anything is below it.

Hence two trees with the same contents below a path and the same directories among its
detours (`SameBelow`) show the same below the path (`SameBelow.isDirectory`,
`SameBelow.find_down`).
-/

namespace FpgaFlow

/-- The locations that the beginnings of an absolute path lead to. -/
def Path.stops (p : Path) : List Location :=
  p.steps.inits.map fun way => way.foldl View.step []

/-- The stops of an absolute path that it leaves again by `..`. -/
def Path.detours (p : Path) : List Location :=
  p.stops.filter fun l => ¬ l <+: p.location

/-- Two trees do not differ below a path, nor in the directories that the path leaves again. -/
structure SameBelow (s t : FileTree) (p : Path) : Prop where
  contents : t.contents p.location = s.contents p.location
  detours : ∀ l ∈ p.detours, t.lookup l = some .directory ↔ s.lookup l = some .directory

namespace FileTree

/-- Everything on the way to something is a directory. -/
theorem directory_of_contents {t : FileTree} {l m : Location} (h : t.contents l ≠ [])
    (hm : m <+: l) : t.lookup m = some .directory := by
  obtain ⟨⟨r, e⟩, hmem⟩ := List.exists_mem_of_ne_nil _ h
  obtain ⟨hr, hlookup⟩ := mem_contents.1 hmem
  obtain ⟨rest, rfl⟩ := hm
  refine View.directory_of_append (r := rest ++ r) (by simp [hr]) ?_
  rw [← List.append_assoc, hlookup]
  rfl

end FileTree

namespace View

/-- A way through directories can be walked. -/
theorem walk_of_directories {t : FileTree} {l : Location} {names : List String}
    (h : ∀ way, way <+: names → t.lookup (way.foldl step l) = some .directory) :
    walk t l names = .ok (names.foldl step l) := by
  induction names generalizing l with
  | nil => rfl
  | cons n ns ih =>
    refine walk_cons_eq_ok_iff.2 ⟨h [] List.nil_prefix, ih fun way hway => ?_⟩
    exact h (n :: way) ((List.prefix_cons_inj n).2 hway)

/-- **A path leads to a directory when it leads through directories only.** -/
theorem isDirectory_iff_stops {v : View} {p : Path} (hp : p.isAbsolute = true) :
    v.isDirectory p = true ↔ ∀ l ∈ p.stops, v.tree.lookup l = some .directory := by
  have hstops : (∀ l ∈ p.stops, v.tree.lookup l = some .directory) ↔
      ∀ way, way <+: p.steps → v.tree.lookup (way.foldl step []) = some .directory := by
    simp only [Path.stops, List.mem_map, List.mem_inits]
    constructor
    · exact fun h way hway => h _ ⟨way, hway, rfl⟩
    · rintro h _ ⟨way, hway, rfl⟩
      exact h way hway
  rw [hstops, isDirectory_iff]
  constructor
  · rintro ⟨l, hl, hdir⟩ way hway
    obtain ⟨-, hwalk, -⟩ := resolve_eq_ok_iff.1 hl
    rw [start_eq_nil hp] at hwalk
    obtain ⟨d, hd, hdirectory⟩ := walk_beginning hwalk hdir hway
    rwa [← eq_of_walk hd]
  · intro h
    have hend := h _ List.prefix_rfl
    refine ⟨p.location, resolve_eq_ok_iff.2 ⟨?_, ?_, fun _ => hend⟩, hend⟩
    · exact Path.text_ne_empty_of_isAbsolute hp
    · rw [start_eq_nil hp]
      exact walk_of_directories h

/-- What a way of names leads to below an absolute path that leads to a directory. -/
theorem find_down_location {v : View} {dir : Path} (hdir : dir.isAbsolute = true)
    (hdirectory : v.isDirectory dir = true) {r : Location} (hr : ∀ s ∈ r, FileTree.IsName s)
    {e : Entry} : v.find (down dir r) = .ok e ↔ v.tree.lookup (dir.location ++ r) = some e := by
  obtain ⟨d, hd, hlookup⟩ := isDirectory_iff.1 hdirectory
  rw [find_down (Path.anchored_of_isAbsolute hdir) hr hd hlookup, location_of_resolve hdir hd]

end View

namespace SameBelow

variable {s t : FileTree} {v w : View} {p : Path}

theorem lookup (h : SameBelow s t p) {r : Location} (hr : r ≠ []) :
    t.lookup (p.location ++ r) = s.lookup (p.location ++ r) := by
  refine Option.ext fun e => ?_
  have hboth := congrArg ((r, e) ∈ ·) h.contents
  simpa [FileTree.mem_contents, hr] using hboth

/-- A path with something below it leads to a directory in both trees or in none. -/
theorem isDirectory (hp : p.isAbsolute = true) (h : SameBelow v.tree w.tree p)
    (hne : v.tree.contents p.location ≠ []) : w.isDirectory p = v.isDirectory p := by
  rw [Bool.eq_iff_iff, View.isDirectory_iff_stops hp, View.isDirectory_iff_stops hp]
  refine forall₂_congr fun l hl => ?_
  by_cases habove : l <+: p.location
  · rw [FileTree.directory_of_contents hne habove,
      FileTree.directory_of_contents (h.contents ▸ hne) habove]
  · exact h.detours l (List.mem_filter.2 ⟨hl, by simpa using habove⟩)

/-- **Trees that do not differ below a path show the same there.** -/
theorem find_down (hp : p.isAbsolute = true) (h : SameBelow v.tree w.tree p)
    (hv : v.isDirectory p = true) (hw : w.isDirectory p = true) {r : Location} (hne : r ≠ [])
    (hr : ∀ s ∈ r, FileTree.IsName s) {e : Entry} :
    w.find (View.down p r) = .ok e ↔ v.find (View.down p r) = .ok e := by
  rw [View.find_down_location hp hw hr, View.find_down_location hp hv hr, h.lookup hne]

end SameBelow

end FpgaFlow
