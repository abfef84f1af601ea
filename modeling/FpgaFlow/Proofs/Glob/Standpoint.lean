import FpgaFlow.Proofs.Glob.Sources
import FpgaFlow.Proofs.Host.Standpoint

/-!
# Patterns seen from another directory

A search that starts at an absolute path finds absolute paths
(`View.isAbsolute_of_mem_search`), and it finds the same ones from every directory
(`View.search_of_tree_eq`).  Hence so do the patterns that are read below an absolute
path (`View.gather_of_tree_eq`).
-/

namespace FpgaFlow.View

open Glob

variable {v w : View} {dir q : Path}

theorem isAbsolute_of_mem_search {ps : List Pattern} (hps : ∀ p ∈ ps, p.Plain)
    (hdir : dir.isAbsolute = true) (hq : q ∈ w.search ps dir) : q.isAbsolute = true := by
  obtain ⟨r, -, rfl⟩ := (mem_search_iff hps (Path.anchored_of_isAbsolute hdir)).1 hq
  exact isAbsolute_down hdir r

/-- **A search finds the same from every directory.** A tree is grown from itself, so that either
view finds no more than the other one. -/
theorem search_of_tree_eq (ht : w.tree = v.tree) {ps : List Pattern} (hps : ∀ p ∈ ps, p.Plain)
    (hdir : dir.isAbsolute = true) (hthere : v.exists_ dir = true) :
    w.search ps dir = v.search ps dir := by
  have hthere' : w.exists_ dir = true := by rw [exists_of_tree_eq ht hdir, hthere]
  have hgrows : v.tree.Grows w.tree := ht ▸ FileTree.Grows.refl v.tree
  have hgrows' : w.tree.Grows v.tree := ht ▸ FileTree.Grows.refl v.tree
  have hv := (search_of_grows hgrows hps hdir).search_eq hthere
  have hw := (search_of_grows hgrows' hps hdir).search_eq hthere'
  refine List.Sublist.antisymm ?_ ?_
  · rw [← hw]
    exact List.filter_sublist
  · rw [← hv]
    exact List.filter_sublist

theorem isAbsolute_scope {base : Path} (hbase : base.isAbsolute = true) {pattern : String}
    {p : PathPattern} (h : PathPattern.parse (base.child pattern).text = .ok p) :
    p.scope.isAbsolute = true := by
  rw [(PathPattern.plain_of_parse (Path.isAbsolute_child hbase pattern) h).1]
  rfl

theorem filesOf_of_tree_eq (ht : w.tree = v.tree) {base : Path} (hbase : base.isAbsolute = true)
    (pattern : String) : w.filesOf base pattern = v.filesOf base pattern := by
  rw [filesOf, filesOf]
  cases hparse : PathPattern.parse (base.child pattern).text with
  | error e => rfl
  | ok p =>
    obtain ⟨hscope, hplain⟩ :=
      PathPattern.plain_of_parse (Path.isAbsolute_child hbase pattern) hparse
    have hroot := isAbsolute_scope hbase hparse
    have hsearch : w.search p.components p.scope = v.search p.components p.scope :=
      search_of_tree_eq ht hplain hroot (by rw [hscope]; exact exists_root v)
    simp only [found, hsearch, List.filter_filter]
    congr 1
    refine List.filter_congr fun q hq => ?_
    have habs := isAbsolute_of_mem_search hplain hroot hq
    rw [isFile_of_tree_eq ht habs, isDirectory_of_tree_eq ht habs]

theorem isAbsolute_of_filesOf {base : Path} (hbase : base.isAbsolute = true) {pattern : String}
    {files : List Path} (h : v.filesOf base pattern = .ok files) (hq : q ∈ files) :
    q.isAbsolute = true := by
  rw [filesOf] at h
  cases hparse : PathPattern.parse (base.child pattern).text with
  | error e =>
    rw [hparse] at h
    cases h
  | ok p =>
    rw [hparse] at h
    rw [← Except.ok.inj h] at hq
    have hplain := (PathPattern.plain_of_parse (Path.isAbsolute_child hbase pattern) hparse).2
    exact isAbsolute_of_mem_search hplain (isAbsolute_scope hbase hparse)
      (List.mem_of_mem_filter (List.mem_of_mem_filter hq))

/-- **Patterns find the same files from every directory.** -/
theorem gather_of_tree_eq (ht : w.tree = v.tree) {base : Path} (hbase : base.isAbsolute = true)
    (patterns : List String) : w.gather base patterns = v.gather base patterns := by
  have hfiles : w.filesOf base = v.filesOf base := funext (filesOf_of_tree_eq ht hbase)
  rw [gather, gather, hfiles]

theorem isAbsolute_of_gather {base : Path} (hbase : base.isAbsolute = true)
    {patterns : List String} {files : List Path} (h : v.gather base patterns = .ok files)
    (hq : q ∈ files) : q.isAbsolute = true := by
  obtain ⟨found, hfound, rfl⟩ := map_eq_ok_iff.1 h
  obtain ⟨files, hfiles, hq⟩ := List.mem_flatten.1 hq
  obtain ⟨pattern, -, hpattern⟩ := exists_of_mem_mapM hfound hfiles
  exact isAbsolute_of_filesOf hbase hpattern hq

end FpgaFlow.View
