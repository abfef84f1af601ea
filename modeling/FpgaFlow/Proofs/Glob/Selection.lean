import FpgaFlow.Proofs.Glob.Sources

/-!
# The files that patterns stand for

Patterns that are read below a directory are looked for one after the other
(`View.mem_gather`), and the result has every file that one of them stands for, each
once and in the order of paths (`View.lists_kept`).  In this order there is one list of
them only, up to spelling (`View.Lists.components_eq`), so that neither the order of the
patterns matters nor how often one is given.
-/

namespace FpgaFlow

namespace Glob

/-- A pattern can be read below a directory. -/
def Readable (base : Path) (pattern : String) : Prop :=
  ∃ p, PathPattern.parse (base.child pattern).text = .ok p

instance (base : Path) (pattern : String) : Decidable (Readable base pattern) :=
  decidable_of_iff _ isOk_eq_true_iff

end Glob

namespace View

open Glob

variable {v : View} {base q : Path} {pattern : String} {patterns others : List String}
  {files found : List Path}

/-- A pattern, read below a directory, stands for a file. -/
def Selects (v : View) (base : Path) (pattern : String) (q : Path) : Prop :=
  ∃ p, PathPattern.parse (base.child pattern).text = .ok p ∧ q ∈ v.found p ∧ v.isFile q = true

/-! ### Looking for patterns -/

theorem exists_filesOf_iff : (∃ files, v.filesOf base pattern = .ok files) ↔
    Readable base pattern := by
  rw [Readable, filesOf]
  cases PathPattern.parse (base.child pattern).text with
  | error e => simp
  | ok p => simp

theorem mem_filesOf (h : v.filesOf base pattern = .ok files) :
    q ∈ files ↔ v.Selects base pattern q := by
  rw [filesOf] at h
  rw [Selects]
  cases hparse : PathPattern.parse (base.child pattern).text with
  | error e =>
    rw [hparse] at h
    cases h
  | ok p =>
    rw [hparse] at h
    rw [← Except.ok.inj h, List.mem_filter]
    simp

theorem exists_gather_iff : (∃ found, v.gather base patterns = .ok found) ↔
    ∀ pattern ∈ patterns, Readable base pattern := by
  simp only [← exists_filesOf_iff (v := v), ← exists_mapM_eq_ok_iff]
  exact exists_map_eq_ok_iff

theorem mem_gather (h : v.gather base patterns = .ok found) :
    q ∈ found ↔ ∃ pattern ∈ patterns, v.Selects base pattern q := by
  obtain ⟨lists, hlists, rfl⟩ := map_eq_ok_iff.1 h
  rw [List.mem_flatten]
  constructor
  · rintro ⟨files, hfiles, hq⟩
    obtain ⟨pattern, hpattern, hfound⟩ := (mem_of_mapM_eq_ok hlists).1 hfiles
    exact ⟨pattern, hpattern, (mem_filesOf hfound).1 hq⟩
  · rintro ⟨pattern, hpattern, hq⟩
    obtain ⟨files, hfound⟩ := exists_mapM_eq_ok_iff.1 ⟨lists, hlists⟩ pattern hpattern
    have hfiles := (mem_of_mapM_eq_ok hlists).2 ⟨pattern, hpattern, hfound⟩
    exact ⟨files, hfiles, (mem_filesOf hfound).2 hq⟩

/-! ### The files in their order -/

/-- A list has the files that patterns stand for, in the order of paths. -/
structure Lists (v : View) (base : Path) (patterns : List String) (files : List Path) : Prop where
  regular : ∀ q ∈ files, v.isFile q = true
  /-- A path is among them, in some spelling, exactly if a pattern stands for it. -/
  found : ∀ q, (∃ r ∈ files, r.same q = true) ↔
    ∃ pattern ∈ patterns, ∃ r, v.Selects base pattern r ∧ r.same q = true
  ascending : files.Pairwise fun p q => p.order q = .lt

theorem lists_kept (h : v.gather base patterns = .ok found) :
    v.Lists base patterns (kept found) := by
  have hsub : ∀ q ∈ kept found, q ∈ found := fun q hq =>
    List.mem_of_mem_filter (List.mem_of_mem_head? (mem_kept.1 hq))
  constructor
  case regular =>
    intro q hq
    obtain ⟨_, _, _, _, _, hfile⟩ := (mem_gather h).1 (hsub q hq)
    exact hfile
  case found =>
    intro q
    constructor
    · rintro ⟨r, hr, hsame⟩
      obtain ⟨pattern, hpattern, hselects⟩ := (mem_gather h).1 (hsub r hr)
      exact ⟨pattern, hpattern, r, hselects, hsame⟩
    · rintro ⟨pattern, hpattern, r, hselects, hsame⟩
      obtain ⟨r', _, hkept, hfirst, -⟩ :=
        exists_kept ((mem_gather h).2 ⟨pattern, hpattern, hselects⟩)
      exact ⟨r', hkept, same_iff.2 ((same_iff.1 hfirst).symm.trans (same_iff.1 hsame))⟩
  case ascending => exact ascending_kept found

theorem lists_of_findFiles (h : v.findFiles base patterns = .ok files) :
    v.Lists base patterns files := by
  rw [findFiles_eq] at h
  obtain ⟨found, hfound, rfl⟩ := map_eq_ok_iff.1 h
  exact lists_kept hfound

/-- **Patterns find their files exactly if each of them can be read.** -/
theorem exists_findFiles_iff : (∃ files, v.findFiles base patterns = .ok files) ↔
    ∀ pattern ∈ patterns, Readable base pattern := by
  rw [← exists_gather_iff (v := v), findFiles_eq, exists_map_eq_ok_iff]

theorem Lists.ascending_components (h : v.Lists base patterns files) :
    (files.map Path.components).Pairwise fun a b => Path.orderComponents a b = .lt :=
  List.pairwise_map.2 h.ascending

/-- No file is listed twice. -/
theorem Lists.nodup (h : v.Lists base patterns files) : (files.map Path.components).Nodup := by
  refine h.ascending_components.imp fun {a b} hlt heq => ?_
  have hself : Path.orderComponents b b = .eq := Std.ReflCmp.compare_self
  rw [heq, hself] at hlt
  cases hlt

/-- **There is one list only of what patterns stand for**, up to spelling. -/
theorem Lists.components_eq {as bs : List Path} (ha : v.Lists base patterns as)
    (hb : v.Lists base others bs) (h : ∀ pattern, pattern ∈ patterns ↔ pattern ∈ others) :
    as.map Path.components = bs.map Path.components := by
  have hsub {ps qs : List String} {cs ds : List Path} (hc : v.Lists base ps cs)
      (hd : v.Lists base qs ds) (hpq : ∀ pattern ∈ ps, pattern ∈ qs) :
      ∀ c ∈ cs.map Path.components, c ∈ ds.map Path.components := by
    intro c hmem
    obtain ⟨q, hq, rfl⟩ := List.mem_map.1 hmem
    obtain ⟨pattern, hpattern, hr⟩ := (hc.found q).1 ⟨q, hq, same_iff.2 rfl⟩
    obtain ⟨r, hr, hsame⟩ := (hd.found q).2 ⟨pattern, hpq pattern hpattern, hr⟩
    exact List.mem_map.2 ⟨r, hr, same_iff.1 hsame⟩
  exact eq_of_ascending ha.ascending_components hb.ascending_components fun c =>
    ⟨hsub ha hb (fun p => (h p).1) c, hsub hb ha (fun p => (h p).2) c⟩

/-- With more patterns there are more files. -/
theorem Lists.mono {as bs : List Path} (ha : v.Lists base patterns as)
    (hb : v.Lists base others bs) (h : ∀ pattern ∈ patterns, pattern ∈ others) (hq : q ∈ as) :
    ∃ r ∈ bs, r.same q = true := by
  obtain ⟨pattern, hpattern, hr⟩ := (ha.found q).1 ⟨q, hq, same_iff.2 rfl⟩
  exact (hb.found q).2 ⟨pattern, h pattern hpattern, hr⟩

end View

end FpgaFlow
