import FpgaFlow.Proofs.Glob.Relative

/-!
# Directories under another name

Two lists of paths may differ in the directory only that the paths are below
(`Path.Rebased`).  Patterns find such lists below directories that have the same files at
the ways they match (`View.forall₂_rebased`), as directories with the same in them do
unless a way goes up (`View.SameInside.isFile_eq`).
-/

namespace FpgaFlow

namespace Path

/-- Two paths are the same way below two others. -/
def Rebased (base c p q : Path) : Prop :=
  ∃ way, way ≠ [] ∧ p.components = base.components ++ way ∧ q.components = c.components ++ way

end Path

namespace View

open Glob

variable {v w : View} {base c : Path} {patterns : List String} {files files' : List Path}

/-- What patterns find is listed by the ways that lead there from the directory. -/
theorem Lists.exists_ways (h : v.Lists base patterns files) (hbase : v.PlainBase base)
    (hpatterns : ∀ pattern ∈ patterns, Relative pattern) :
    ∃ ways : List (List Path.Component),
      files.map Path.components = ways.map (base.components ++ ·) ∧
      (ways.Pairwise fun a b => Path.orderComponents a b = .lt) ∧
      ∀ way, way ∈ ways ↔ ∃ r, MatchedBy patterns r ∧ v.isFile (down base r) = true ∧
        way = r.filterMap Path.componentOf? := by
  let ways := (files.map Path.components).map (List.drop base.components.length)
  have hways : files.map Path.components = ways.map (base.components ++ ·) := by
    rw [List.map_map]
    refine (List.map_id _).symm.trans (List.map_congr_left fun cs hcs => ?_)
    obtain ⟨r, -, -, rfl⟩ := (h.mem_components_iff hbase hpatterns).1 hcs
    simp
  refine ⟨ways, hways, ?_, fun way => ?_⟩
  · have hascending := h.ascending_components
    simpa only [hways, List.pairwise_map, Path.orderComponents_append] using hascending
  · have hiff : base.components ++ way ∈ files.map Path.components ↔ _ :=
      h.mem_components_iff hbase hpatterns
    rw [hways, List.mem_map_of_injective (List.append_right_injective _)] at hiff
    simpa using hiff

/-- **Patterns find the same ways** below two directories that have the same files at these ways. -/
theorem forall₂_rebased (h : v.Lists base patterns files) (h' : w.Lists c patterns files')
    (hbase : v.PlainBase base) (hc : w.PlainBase c)
    (hpatterns : ∀ pattern ∈ patterns, Relative pattern)
    (hsame : ∀ r, MatchedBy patterns r → w.isFile (down c r) = v.isFile (down base r)) :
    List.Forall₂ (Path.Rebased base c) files files' := by
  obtain ⟨ways, hways, hascending, hmem⟩ := h.exists_ways hbase hpatterns
  obtain ⟨ways', hways', hascending', hmem'⟩ := h'.exists_ways hc hpatterns
  have heq : ways' = ways := by
    refine eq_of_ascending hascending' hascending fun way => ?_
    rw [hmem, hmem']
    refine exists_congr fun r => and_congr_right fun hr => ?_
    rw [hsame r hr]
  have hne : ∀ way ∈ ways, way ≠ [] := by
    intro way hway
    obtain ⟨r, hr, hfile, rfl⟩ := (hmem way).1 hway
    exact way_ne_nil hbase hr.slash_notMem hfile
  have hcomponents : List.Forall₂ (fun a b => ∃ way, way ≠ [] ∧ a = base.components ++ way ∧
      b = c.components ++ way) (files.map Path.components) (files'.map Path.components) := by
    rw [hways, hways', heq, List.forall₂_map_left_iff, List.forall₂_map_right_iff,
      List.forall₂_same]
    exact fun way hway => ⟨way, hne way hway, rfl, rfl⟩
  rwa [List.forall₂_map_left_iff, List.forall₂_map_right_iff] at hcomponents

/-! ### Directories with the same in them -/

/-- Two directories have the same in them. -/
def SameInside (v w : View) (base c : Path) : Prop :=
  ∃ d e, v.resolve base = .ok d ∧ w.resolve c = .ok e ∧
    ∀ r, w.tree.lookup (e ++ r) = v.tree.lookup (d ++ r)

theorem SameInside.symm (h : SameInside v w base c) : SameInside w v c base := by
  obtain ⟨d, e, hd, he, hsame⟩ := h
  exact ⟨e, d, he, hd, fun r => (hsame r).symm⟩

/-- A walk that does not go up stays inside. -/
theorem walk_of_lookup_eq {s t : FileTree} {d e : Location}
    (h : ∀ r, t.lookup (e ++ r) = s.lookup (d ++ r)) {names : List String} (hup : ".." ∉ names)
    {x l : Location} (hwalk : walk s (d ++ x) names = .ok l) :
    ∃ y, l = d ++ y ∧ walk t (e ++ x) names = .ok (e ++ y) := by
  induction names generalizing x with
  | nil => exact ⟨x, (Except.ok.inj hwalk).symm, rfl⟩
  | cons a names ih =>
    obtain ⟨hdirectory, hrest⟩ := walk_cons_eq_ok_iff.1 hwalk
    obtain ⟨ha, hup⟩ := not_or.1 (List.mem_cons.not.1 hup)
    have hstep (f : Location) : step (f ++ x) a = f ++ (if a = "." then x else x ++ [a]) := by
      rw [step, if_neg (Ne.symm ha)]
      split <;> simp
    rw [hstep] at hrest
    obtain ⟨y, hy, hwalk'⟩ := ih hup hrest
    refine ⟨y, hy, walk_cons_eq_ok_iff.2 ⟨(h x).trans hdirectory, ?_⟩⟩
    rw [hstep]
    exact hwalk'

theorem SameInside.isFile_of (h : SameInside v w base c) (hbase : base.Anchored) (hc : c.Anchored)
    {r : Location} (hr : ∀ s ∈ r, '/' ∉ s.toList) (hup : ".." ∉ r)
    (hfile : v.isFile (down base r) = true) : w.isFile (down c r) = true := by
  obtain ⟨d, e, hd, he, hsame⟩ := h
  obtain ⟨hlast, l, content, x, hwalk, hlookup⟩ := (isFile_down_iff hbase hr hd).1 hfile
  have hup' : ".." ∉ r.filter (· ≠ "") := fun h => hup (List.mem_of_mem_filter h)
  rw [← List.append_nil d] at hwalk
  obtain ⟨y, rfl, hwalk'⟩ := walk_of_lookup_eq hsame hup' hwalk
  rw [List.append_nil] at hwalk'
  exact (isFile_down_iff hc hr he).2 ⟨hlast, _, content, x, hwalk', (hsame y).trans hlookup⟩

theorem SameInside.isFile_eq (h : SameInside v w base c) (hbase : base.Anchored)
    (hc : c.Anchored) {r : Location} (hr : ∀ s ∈ r, '/' ∉ s.toList) (hup : ".." ∉ r) :
    w.isFile (down c r) = v.isFile (down base r) := by
  rw [Bool.eq_iff_iff]
  exact ⟨h.symm.isFile_of hc hbase hr hup, h.isFile_of hbase hc hr hup⟩

end View

end FpgaFlow
