import FpgaFlow.Manifest
import FpgaFlow.Proofs.Path.Ancestors
import FpgaFlow.Proofs.Tree.Below
import FpgaFlow.Proofs.Tree.Overwriting
import Mathlib.Data.List.Infix

/-!
# The nearest manifest

Looking for a manifest from a directory finds the one in the nearest directory above
that holds one, or in the directory itself (`View.findManifest_of_nearest`).
-/

namespace FpgaFlow

namespace FileTree

/-- Whether there is a file at a location. -/
def holdsFile (t : FileTree) (l : Location) : Bool :=
  match t.lookup l with
  | some (.file ..) => true
  | _ => false

theorem holdsFile_iff {t : FileTree} {l : Location} :
    t.holdsFile l = true ↔ ∃ c x, t.lookup l = some (.file c x) := by
  rw [holdsFile]
  split
  next c x h => simp [h]
  next h => simpa using h

/-- The nearest location above a directory, or its own, that has a manifest. -/
structure Nearest (t : FileTree) (d root : Location) : Prop where
  above : root <+: d
  holds : t.holdsFile (root ++ [Manifest.fileName]) = true
  nearest : ∀ l, l <+: d → t.holdsFile (l ++ [Manifest.fileName]) = true → l <+: root

theorem nearest_iff {t : FileTree} {d root : Location} : t.Nearest d root ↔
    root <+: d ∧ t.holdsFile (root ++ [Manifest.fileName]) = true ∧
      ∀ l ∈ d.inits, t.holdsFile (l ++ [Manifest.fileName]) = true → l <+: root := by
  constructor
  · exact fun h => ⟨h.above, h.holds, fun l hl => h.nearest l ((List.mem_inits l d).1 hl)⟩
  · rintro ⟨habove, hholds, hnearest⟩
    exact ⟨habove, hholds, fun l hl => hnearest l ((List.mem_inits l d).2 hl)⟩

instance (t : FileTree) (d root : Location) : Decidable (t.Nearest d root) :=
  decidable_of_iff _ nearest_iff.symm

end FileTree

namespace View

variable {v : View} {l d root : Location}

theorem isName_of_isDirectory (hl : v.tree.lookup l = some .directory) :
    ∀ s ∈ l, FileTree.IsName s :=
  fun _ hs => FileTree.isName_of_lookup (by rw [hl]; simp) hs

/-- **The path of a directory leads there.** -/
theorem resolve_ofLocation (hl : v.tree.lookup l = some .directory) :
    v.resolve (Path.ofLocation l) = .ok l := by
  have habs := Path.isAbsolute_ofLocation l
  refine resolve_eq_ok_iff.2 ⟨Path.text_ne_empty_of_isAbsolute habs, ?_, fun _ => hl⟩
  rw [start_eq_nil habs, Path.steps_ofLocation (isName_of_isDirectory hl)]
  exact walk_of_lookup (d := []) (FileTree.lookup_nil _) (by rw [List.nil_append, hl]; rfl)

theorem isFile_manifest (hl : v.tree.lookup l = some .directory) :
    v.isFile ((Path.ofLocation l).child Manifest.fileName) = true ↔
      v.tree.holdsFile (l ++ [Manifest.fileName]) = true := by
  have habs := Path.isAbsolute_ofLocation l
  have hanchored : (Path.ofLocation l).Anchored := Path.anchored_of_isAbsolute habs
  have hname : ∀ s ∈ [Manifest.fileName], FileTree.IsName s := by
    intro s hs
    rw [List.mem_singleton.1 hs]
    exact ⟨by decide, by decide, by decide, by decide⟩
  have hfind (e : Entry) := find_down (e := e) hanchored hname (resolve_ofLocation hl) hl
  have hdown : down (Path.ofLocation l) [Manifest.fileName] =
      (Path.ofLocation l).child Manifest.fileName := below_eq_child hanchored _
  rw [hdown] at hfind
  rw [isFile_iff_find, FileTree.holdsFile_iff]
  exact exists_congr fun c => exists_congr fun x => hfind _

/-- **Looking for a manifest finds the nearest one.** -/
theorem findManifest_of_nearest (hd : v.tree.lookup d = some .directory)
    (h : v.tree.Nearest d root) : v.findManifest (Path.ofLocation d) =
      .ok ((Path.ofLocation root).child Manifest.fileName) := by
  suffices hfind : ((Path.ofLocation d).ancestors.map fun p => p.child Manifest.fileName).find?
      v.isFile = some ((Path.ofLocation root).child Manifest.fileName) by
    rw [findManifest, hfind]
  induction d using List.reverseRecOn with
  | nil =>
    obtain rfl : root = [] := List.prefix_nil.1 h.above
    rw [Path.ancestors_root, List.map_singleton,
      List.find?_cons_of_pos ((isFile_manifest hd).2 h.holds)]
  | append_singleton l name ih =>
    have habove : v.tree.lookup l = some .directory := by
      have hdrop := FileTree.lookup_dropLast (t := v.tree) (l := l ++ [name]) (by rw [hd]; simp)
      rwa [List.dropLast_concat] at hdrop
    rw [Path.ancestors_ofLocation_concat (isName_of_isDirectory hd), List.map_cons]
    cases hfile : v.isFile ((Path.ofLocation (l ++ [name])).child Manifest.fileName) with
    | true =>
      have hroot := h.nearest _ List.prefix_rfl ((isFile_manifest hd).1 hfile)
      rw [List.find?_cons_of_pos hfile, h.above.eq_of_length_le hroot.length_le]
    | false =>
      have hnot : root ≠ l ++ [name] := by
        rintro rfl
        rw [(isFile_manifest hd).2 h.holds] at hfile
        cases hfile
      have hroot : root <+: l := (List.prefix_concat_iff.1 h.above).resolve_left hnot
      rw [List.find?_cons_of_neg (by simp [hfile])]
      exact ih habove ⟨hroot, h.holds, fun m hm => h.nearest m (hm.trans (List.prefix_append _ _))⟩

end View

end FpgaFlow
