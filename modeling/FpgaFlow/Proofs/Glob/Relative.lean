import FpgaFlow.Proofs.Glob.Origin
import FpgaFlow.Proofs.Glob.Selection

/-!
# Patterns and the name of their directory

Below a directory whose path is plain text, patterns find those files that they match by
the way that leads to them (`View.exists_selects_iff`).
-/

namespace FpgaFlow

namespace Glob

/-- A pattern that is read below a directory, and can be read. -/
structure Relative (pattern : String) : Prop where
  relative : (⟨pattern⟩ : Path).isAbsolute = false
  readable : ∃ p, PathPattern.parse pattern = .ok p

instance (pattern : String) : Decidable (Relative pattern) :=
  decidable_of_iff ((⟨pattern⟩ : Path).isAbsolute = false ∧ (PathPattern.parse pattern).isOk = true)
    ⟨fun h => ⟨h.1, isOk_eq_true_iff.1 h.2⟩, fun h => ⟨h.1, isOk_eq_true_iff.2 h.2⟩⟩

theorem Matches.slash_notMem {pattern : String} {r : List String} (h : Matches pattern r) :
    ∀ s ∈ r, '/' ∉ s.toList := by
  obtain ⟨p, hp, -, hr⟩ := h
  exact hr.slash_notMem (PathPattern.plain_components hp)

end Glob

namespace View

open Glob

variable {v w : View} {base c dir q : Path} {pattern : String} {r : Location}

/-! ### Files at the ends of ways -/

/-- What is found at the end of a way depends on where the directory is, not on its spelling. -/
theorem isFile_down_iff {d : Location} (hdir : dir.Anchored) (hr : ∀ s ∈ r, '/' ∉ s.toList)
    (hd : v.resolve dir = .ok d) : v.isFile (down dir r) = true ↔
      r.getLast? ≠ some "" ∧ ∃ l c x, walk v.tree d (r.filter (· ≠ "")) = .ok l ∧
        v.tree.lookup l = some (.file c x) := by
  rw [isFile_iff]
  constructor
  · rintro ⟨l, c, x, hl, hfile⟩
    obtain ⟨hwalk, hslash⟩ := (resolve_down_iff hdir hr hd).1 hl
    refine ⟨fun hlast => ?_, l, c, x, hwalk, hfile⟩
    rw [hslash hlast] at hfile
    cases hfile
  · rintro ⟨hlast, l, c, x, hwalk, hfile⟩
    exact ⟨l, c, x, (resolve_down_iff hdir hr hd).2 ⟨hwalk, fun h => absurd h hlast⟩, hfile⟩

theorem resolve_of_respelled {d : Location} (hdir : dir.Anchored) (h : dir.Respelled base)
    (hd : v.resolve base = .ok d) (hdirectory : v.tree.lookup d = some .directory) :
    v.resolve dir = .ok d := by
  obtain ⟨-, hwalk, -⟩ := resolve_eq_ok_iff.1 hd
  rw [start, ← h.isAbsolute, ← start, ← h.steps] at hwalk
  exact resolve_eq_ok_iff.2 ⟨hdir.text_ne, hwalk, fun _ => hdirectory⟩

/-! ### What a pattern stands for -/

/-- A directory whose path is plain text to patterns, and whose first component is not `.`. -/
structure PlainBase (v : View) (base : Path) : Prop where
  anchored : base.Anchored
  ordinary : ∀ c ∈ base.text.toList, Pattern.Ordinary c
  directory : v.isDirectory base = true

theorem PlainBase.readable (hbase : v.PlainBase base) (h : Relative pattern) :
    Readable base pattern := by
  by_cases hne : pattern = ""
  · obtain ⟨p, hp, -⟩ := PathPattern.parse_child_empty hbase.anchored.text_ne hbase.ordinary
    exact ⟨p, hne ▸ hp⟩
  · obtain ⟨names, -, hparse⟩ :=
      PathPattern.parse_child hbase.anchored.text_ne hbase.ordinary h.relative hne
    obtain ⟨p, hp⟩ := h.readable
    exact ⟨_, hparse p hp⟩

/-- A directory has no file by its own name. -/
theorem isFile_down_blank (hbase : v.PlainBase base) : v.isFile (down base [""]) = false := by
  obtain ⟨d, hd, -⟩ := isDirectory_iff.1 hbase.directory
  rw [Bool.eq_false_iff]
  intro h
  exact ((isFile_down_iff hbase.anchored (by decide) hd).1 h).1 rfl

/-- **A pattern below a directory** stands for the files that it matches by the way to them. -/
theorem selects_iff (hbase : v.PlainBase base) (h : Relative pattern) (hne : pattern ≠ "") :
    ∃ dir : Path, dir.Anchored ∧ dir.Respelled base ∧ ∀ f, v.Selects base pattern f ↔
      v.isFile f = true ∧ ∃ r, Matches pattern r ∧ f = down dir r := by
  obtain ⟨p, hp⟩ := h.readable
  obtain ⟨names, hspells, hparse⟩ :=
    PathPattern.parse_child hbase.anchored.text_ne hbase.ordinary h.relative hne
  obtain ⟨hdir, hrespelled⟩ := respelled_down hbase.anchored hspells
  obtain ⟨d, hd, hdirectory⟩ := isDirectory_iff.1 hbase.directory
  have hthere : v.exists_ (down base.origin names) = true :=
    exists_iff.2 ⟨d, _, resolve_of_respelled hdir hrespelled hd hdirectory, hdirectory⟩
  have hsearch := search_origin hbase.anchored hspells hthere p.components
  have hplain := PathPattern.plain_components hp
  refine ⟨_, hdir, hrespelled, fun f => ?_⟩
  constructor
  · rintro ⟨p', hp', hfound, hfile⟩
    obtain rfl := Except.ok.inj ((hparse p hp).symm.trans hp')
    obtain ⟨hmem, hend⟩ := List.mem_filter.1 hfound
    rw [hsearch, mem_search_iff_standsFor hplain hdir hfile] at hmem
    obtain ⟨r, hr, rfl⟩ := hmem
    have honly : p.directoriesOnly = false := by
      simpa [not_isDirectory_of_isFile hfile] using hend
    exact ⟨hfile, r, ⟨p, hp, honly, hr⟩, rfl⟩
  · rintro ⟨hfile, r, ⟨p', hp', honly, hr⟩, rfl⟩
    obtain rfl := Except.ok.inj (hp.symm.trans hp')
    refine ⟨_, hparse p hp, List.mem_filter.2 ⟨?_, by simp [honly]⟩, hfile⟩
    rw [hsearch, mem_search_iff_standsFor hplain hdir hfile]
    exact ⟨r, hr, rfl⟩

theorem eq_of_matches_empty (h : Matches "" r) : r = [""] := by
  have hempty : PathPattern.parse "" = .ok ⟨⟨"."⟩, [⟨[]⟩], false⟩ := rfl
  obtain ⟨p, hp, -, hr⟩ := h
  obtain rfl := Except.ok.inj (hempty.symm.trans hp)
  cases hr with
  | literal h hrest =>
    cases hrest
    rw [← Option.some.inj h]
  | name h => cases h
  | special h => cases h

theorem not_selects_empty (hbase : v.PlainBase base) : ¬ v.Selects base "" q := by
  obtain ⟨p, hp, hdirectories⟩ :=
    PathPattern.parse_child_empty hbase.anchored.text_ne hbase.ordinary
  rintro ⟨p', hp', hfound, hfile⟩
  obtain rfl := Except.ok.inj (hp.symm.trans hp')
  have hend := List.of_mem_filter hfound
  rw [hdirectories, not_isDirectory_of_isFile hfile] at hend
  cases hend

/-- The same up to spelling: the way to the file begins at the directory as it is written. -/
theorem exists_selects_iff (hbase : v.PlainBase base) (h : Relative pattern) (q : Path) :
    (∃ f, v.Selects base pattern f ∧ f.same q = true) ↔
      ∃ r, Matches pattern r ∧ v.isFile (down base r) = true ∧ (down base r).same q = true := by
  by_cases hne : pattern = ""
  · subst hne
    refine iff_of_false (fun ⟨f, hf, _⟩ => not_selects_empty hbase hf) ?_
    rintro ⟨r, hr, hfile, -⟩
    rw [eq_of_matches_empty hr, isFile_down_blank hbase] at hfile
    cases hfile
  · obtain ⟨dir, hdir, hrespelled, hselects⟩ := selects_iff hbase h hne
    obtain ⟨d, hd, hdirectory⟩ := isDirectory_iff.1 hbase.directory
    have hresolve := resolve_of_respelled hdir hrespelled hd hdirectory
    have hfile {r : Location} (hr : Matches pattern r) :
        v.isFile (down dir r) = v.isFile (down base r) := by
      rw [Bool.eq_iff_iff, isFile_down_iff hdir hr.slash_notMem hresolve,
        isFile_down_iff hbase.anchored hr.slash_notMem hd]
    have hsame {r : Location} (hr : Matches pattern r) :
        (down dir r).same q = (down base r).same q := by
      rw [Path.same, Path.same, components_down hdir hr.slash_notMem,
        components_down hbase.anchored hr.slash_notMem, hrespelled.components]
    constructor
    · rintro ⟨f, hf, hq⟩
      obtain ⟨hregular, r, hr, rfl⟩ := (hselects f).1 hf
      exact ⟨r, hr, hfile hr ▸ hregular, hsame hr ▸ hq⟩
    · rintro ⟨r, hr, hregular, hq⟩
      exact ⟨down dir r, (hselects _).2 ⟨(hfile hr).trans hregular, r, hr, rfl⟩,
        (hsame hr).trans hq⟩

/-! ### What patterns find -/

variable {patterns : List String} {files files' : List Path}

/-- One of the patterns stands for the way to a file. -/
def MatchedBy (patterns : List String) (r : Location) : Prop :=
  ∃ pattern ∈ patterns, Matches pattern r

theorem MatchedBy.slash_notMem (h : MatchedBy patterns r) : ∀ s ∈ r, '/' ∉ s.toList := by
  obtain ⟨pattern, -, hr⟩ := h
  exact hr.slash_notMem

/-- **Patterns find exactly the files** that one of them matches by the way to them. -/
theorem Lists.found_iff (h : v.Lists base patterns files) (hbase : v.PlainBase base)
    (hpatterns : ∀ pattern ∈ patterns, Relative pattern) (q : Path) :
    (∃ f ∈ files, f.same q = true) ↔
      ∃ r, MatchedBy patterns r ∧ v.isFile (down base r) = true ∧ (down base r).same q = true := by
  rw [h.found]
  constructor
  · rintro ⟨pattern, hpattern, hselects⟩
    obtain ⟨r, hr, hfound⟩ := (exists_selects_iff hbase (hpatterns pattern hpattern) q).1 hselects
    exact ⟨r, ⟨pattern, hpattern, hr⟩, hfound⟩
  · rintro ⟨r, ⟨pattern, hpattern, hr⟩, hfound⟩
    exact ⟨pattern, hpattern,
      (exists_selects_iff hbase (hpatterns pattern hpattern) q).2 ⟨r, hr, hfound⟩⟩

theorem exists_lists (hbase : v.PlainBase base)
    (hpatterns : ∀ pattern ∈ patterns, Relative pattern) :
    ∃ files, v.findFiles base patterns = .ok files ∧ v.Lists base patterns files := by
  obtain ⟨files, hfiles⟩ := exists_findFiles_iff (v := v) |>.2
    fun pattern hpattern => hbase.readable (hpatterns pattern hpattern)
  exact ⟨files, hfiles, lists_of_findFiles hfiles⟩

/-- The way to a file has a component. -/
theorem way_ne_nil (hbase : v.PlainBase base) (hr : ∀ s ∈ r, '/' ∉ s.toList)
    (hfile : v.isFile (down base r) = true) : r.filterMap Path.componentOf? ≠ [] := by
  obtain ⟨d, hd, hdirectory⟩ := isDirectory_iff.1 hbase.directory
  obtain ⟨-, l, c, x, hwalk, hlookup⟩ := (isFile_down_iff hbase.anchored hr hd).1 hfile
  intro hnil
  have hdots : ∀ s ∈ r.filter (· ≠ ""), s = "." := by
    intro s hs
    obtain ⟨hs, hne⟩ := List.mem_filter.1 hs
    have hnone := List.filterMap_eq_nil_iff.1 hnil s hs
    exact (Path.componentOf?_eq_none_iff.1 hnone).resolve_left (by simpa using hne)
  have hstay {names : List String} (h : ∀ s ∈ names, s = ".") : names.foldl step d = d := by
    induction names with
    | nil => rfl
    | cons a names ih =>
      rw [List.foldl_cons, h a List.mem_cons_self]
      exact ih fun s hs => h s (List.mem_cons_of_mem a hs)
  rw [eq_of_walk hwalk, hstay hdots, hdirectory] at hlookup
  cases hlookup

/-- The files that are found below a directory have the components of the directory in front. -/
theorem Lists.mem_components_iff (h : v.Lists base patterns files) (hbase : v.PlainBase base)
    (hpatterns : ∀ pattern ∈ patterns, Relative pattern) {cs : List Path.Component} :
    cs ∈ files.map Path.components ↔ ∃ r, MatchedBy patterns r ∧ v.isFile (down base r) = true ∧
      cs = base.components ++ r.filterMap Path.componentOf? := by
  constructor
  · intro hcs
    obtain ⟨f, hf, rfl⟩ := List.mem_map.1 hcs
    obtain ⟨r, hr, hfile, hsame⟩ := (h.found_iff hbase hpatterns f).1 ⟨f, hf, same_iff.2 rfl⟩
    refine ⟨r, hr, hfile, ?_⟩
    rw [← same_iff.1 hsame, components_down hbase.anchored hr.slash_notMem]
  · rintro ⟨r, hr, hfile, rfl⟩
    obtain ⟨f, hf, hsame⟩ := (h.found_iff hbase hpatterns _).2 ⟨r, hr, hfile, same_iff.2 rfl⟩
    rw [← components_down hbase.anchored hr.slash_notMem, ← same_iff.1 hsame]
    exact List.mem_map_of_mem hf

end View

end FpgaFlow
