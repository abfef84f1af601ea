import FpgaFlow.Proofs.Glob.Relocation
import FpgaFlow.Proofs.Manifest.Sources

/-!
# Designs in another directory

The patterns of a manifest are read below the directory of the design.  If the path of
the directory is plain text to patterns, they find the files in it that they match, and
in a directory of another name they find the same ways.

**Main statement** `sources_follow_root`; `findFiles_bracketedRoot` shows what happens in
directories with other names.
-/

namespace FpgaFlow

namespace Path

theorem Rebased.extension?_eq {base c p q : Path} (h : Rebased base c p q) :
    q.extension? = p.extension? := by
  obtain ⟨way, hne, hp, hq⟩ := h
  have hname : q.fileName? = p.fileName? := by
    rw [fileName?, fileName?, hp, hq, List.getLast?_append_of_ne_nil _ hne,
      List.getLast?_append_of_ne_nil _ hne]
  rw [extension?, extension?, hname]

end Path

namespace PrecompiledDesign

open Glob View

/-- Two sources in one language that are the same way below two paths. -/
def RebasedSource (base c : Path) (s t : SourceFile) : Prop :=
  Path.Rebased base c s.path t.path ∧ t.language = s.language

variable {base c : Path}

theorem rel_asSource? {p q : Path} (h : Path.Rebased base c p q) :
    Option.Rel (RebasedSource base c) (asSource? p) (asSource? q) := by
  rw [asSource?, asSource?, h.extension?_eq]
  cases Language.ofExtension? (p.extension?.getD "") with
  | none => exact .none
  | some language => exact .some ⟨h, rfl⟩

theorem forall₂_asSource? {files files' : List Path}
    (h : List.Forall₂ (Path.Rebased base c) files files') :
    List.Forall₂ (RebasedSource base c) (files.filterMap asSource?)
      (files'.filterMap asSource?) := by
  have hrel : Relator.LiftFun (Path.Rebased base c) (Option.Rel (RebasedSource base c))
      asSource? asSource? := fun _ _ => rel_asSource?
  exact List.rel_filterMap hrel h

theorem extraSources_of_findFiles {d : PrecompiledDesign} {v : View} {files : List Path}
    (h : v.findFiles d.root d.manifest.design.sources = .ok files) :
    d.extraSources v = .ok (files.filterMap asSource?) := by
  rw [extraSources_eq_map, h]
  rfl

/-- **Patterns are relative to their directory**, if its path is plain text and its first component
is not `.`: they find the files that one of them matches by the way to them. Below another such
directory, also in another tree, they find the same ways if it has the same files at the ways they
match, as a directory with the same in it has unless a way goes up. The sources of a design in
either directory are the same ways as well, in the same languages and the same order. -/
theorem sources_follow_root (v : View) (base : Path) (patterns : List String)
    (hbase : v.PlainBase base) (hpatterns : ∀ pattern ∈ patterns, Relative pattern) :
    ∃ files, v.findFiles base patterns = .ok files ∧ (∀ f ∈ files, v.isFile f = true) ∧
      (∀ q, (∃ f ∈ files, f.same q = true) ↔
        ∃ r, MatchedBy patterns r ∧ v.isFile (down base r) = true ∧
          (down base r).same q = true) ∧
      (∀ w c, w.PlainBase c →
        (∀ r, MatchedBy patterns r → w.isFile (down c r) = v.isFile (down base r)) →
        ∃ files', w.findFiles c patterns = .ok files' ∧
          List.Forall₂ (Path.Rebased base c) files files' ∧
          ∀ d : PrecompiledDesign, d.root = base → d.manifest.design.sources = patterns →
            ∃ sources sources', d.extraSources v = .ok sources ∧
              { d with root := c }.extraSources w = .ok sources' ∧
              List.Forall₂ (RebasedSource base c) sources sources') ∧
      ∀ w c, w.PlainBase c → SameInside v w base c →
        (∀ r, MatchedBy patterns r → ".." ∉ r) →
        ∀ r, MatchedBy patterns r → w.isFile (down c r) = v.isFile (down base r) := by
  obtain ⟨files, hfiles, hlists⟩ := exists_lists hbase hpatterns
  refine ⟨files, hfiles, hlists.regular, hlists.found_iff hbase hpatterns, ?_, ?_⟩
  · intro w c hc hsame
    obtain ⟨files', hfiles', hlists'⟩ := exists_lists hc hpatterns
    have hrebased := forall₂_rebased hlists hlists' hbase hc hpatterns hsame
    refine ⟨files', hfiles', hrebased, ?_⟩
    rintro d rfl rfl
    exact ⟨_, _, extraSources_of_findFiles hfiles, extraSources_of_findFiles hfiles',
      forall₂_asSource? hrebased⟩
  · intro w c hc hinside hup r hr
    exact hinside.isFile_eq hbase.anchored hc.anchored hr.slash_notMem (hup r hr)

/-- A directory with one source further down, seen from there. -/
def sourceBelow (name : String) : View where
  tree := ((FileTree.empty.put [name] .directory).put [name, "src"] .directory).put
    [name, "src", "a.v"] (.file (.text "") false)
  directory := [name]

theorem lookup_sourceBelow {name : String} (hname : name = "p" ∨ name = "q") (r : Location) :
    (sourceBelow name).tree.lookup ([name] ++ r) =
      if r = ["src", "a.v"] then some (.file (.text "") false)
      else if r = ["src"] ∨ r = [] then some .directory
      else none := by
  have haccepts : ∀ name ∈ ["p", "q"], FileTree.empty.Accepts [name] ∧
      (FileTree.empty.put [name] .directory).Accepts [name, "src"] ∧
      ((FileTree.empty.put [name] .directory).put [name, "src"] .directory).Accepts
        [name, "src", "a.v"] := by decide +kernel
  obtain ⟨h₁, h₂, h₃⟩ := haccepts name (by simpa using hname)
  have hempty : FileTree.empty.lookup (name :: r) = none := rfl
  rw [sourceBelow, FileTree.lookup_put h₃, FileTree.lookup_put h₂, FileTree.lookup_put h₁,
    List.singleton_append, hempty]
  simp only [List.cons.injEq, true_and]
  split
  next => rfl
  next => split <;> simp_all

theorem matches_recursive : Matches "**/*.v" (["src"] ++ ["a.v"]) :=
  ⟨_, rfl, rfl, .recursive rfl (by decide) (by decide) (by decide) .done⟩

theorem sources_follow_renamedRoot :
    (sourceBelow "p").PlainBase ⟨"/p"⟩ ∧ (sourceBelow "q").PlainBase ⟨"/q"⟩ ∧
    (∀ pattern ∈ ["**/*.v"], Relative pattern) ∧
    SameInside (sourceBelow "p") (sourceBelow "q") ⟨"/p"⟩ ⟨"/q"⟩ ∧
    ∃ files files', (sourceBelow "p").findFiles ⟨"/p"⟩ ["**/*.v"] = .ok files ∧
      (sourceBelow "q").findFiles ⟨"/q"⟩ ["**/*.v"] = .ok files' ∧
      (∃ f ∈ files, f.same ⟨"/p/src/a.v"⟩ = true) ∧
      List.Forall₂ (Path.Rebased ⟨"/p"⟩ ⟨"/q"⟩) files files' := by
  have hp : (sourceBelow "p").PlainBase ⟨"/p"⟩ :=
    ⟨⟨by decide, by decide⟩, by simp [Pattern.Ordinary], by decide +kernel⟩
  have hq : (sourceBelow "q").PlainBase ⟨"/q"⟩ :=
    ⟨⟨by decide, by decide⟩, by simp [Pattern.Ordinary], by decide +kernel⟩
  have hrelative : ∀ pattern ∈ ["**/*.v"], Relative pattern := by
    decide +kernel
  have hinside : SameInside (sourceBelow "p") (sourceBelow "q") ⟨"/p"⟩ ⟨"/q"⟩ := by
    refine ⟨["p"], ["q"], by decide +kernel, by decide +kernel, fun r => ?_⟩
    rw [lookup_sourceBelow (.inr rfl), lookup_sourceBelow (.inl rfl)]
  have hdown : ∀ r, MatchedBy ["**/*.v"] r → ".." ∉ r := by
    rintro r ⟨pattern, hpattern, p, hparse, -, hr⟩ hup
    rw [List.mem_singleton.1 hpattern] at hparse
    obtain rfl := Except.ok.inj hparse
    have hnone := hr.exists_accepts_up hup
    revert hnone
    decide
  obtain ⟨files, hfiles, -, hfound, hmove, hsame⟩ :=
    sources_follow_root (sourceBelow "p") ⟨"/p"⟩ ["**/*.v"] hp hrelative
  obtain ⟨files', hfiles', hrebased, -⟩ := hmove _ _ hq (hsame _ _ hq hinside hdown)
  refine ⟨hp, hq, hrelative, hinside, files, files', hfiles, hfiles', ?_, hrebased⟩
  exact (hfound _).2 ⟨_, ⟨_, List.mem_singleton_self _, matches_recursive⟩,
    by decide +kernel, by decide +kernel⟩

/-- The name of the directory is read as a pattern: brackets in it stand for something else, or
cannot be read at all, and a directory that is written `.` is left out. -/
theorem findFiles_bracketedRoot :
    Relative "**/*.v" ∧ Matches "**/*.v" (["src"] ++ ["a.v"]) ∧
    ((sourceBelow "p[1]").isDirectory ⟨"/p[1]"⟩ = true ∧
      (sourceBelow "p[1]").isFile ⟨"/p[1]/src/a.v"⟩ = true ∧
      (sourceBelow "p[1]").findFiles ⟨"/p[1]"⟩ ["**/*.v"] = .ok []) ∧
    ((sourceBelow "p[").isDirectory ⟨"/p["⟩ = true ∧
      ¬ ∃ files, (sourceBelow "p[").findFiles ⟨"/p["⟩ ["**/*.v"] = .ok files) ∧
    ((sourceBelow "p").isDirectory ⟨"."⟩ = true ∧
      (sourceBelow "p").findFiles ⟨"."⟩ ["**/*.v"] = .ok [⟨"src/a.v"⟩] ∧
      (⟨"src/a.v"⟩ : Path).same ((⟨"."⟩ : Path).join ⟨"src/a.v"⟩) = false) := by
  refine ⟨by decide +kernel, matches_recursive, ⟨by decide +kernel, by decide +kernel, ?_⟩,
    ⟨by decide +kernel, ?_⟩, by decide +kernel, ?_, by decide⟩
  · exact eq_ok_of_toOption (by decide +kernel)
  · rw [exists_findFiles_iff]
    decide +kernel
  · exact eq_ok_of_toOption (by decide +kernel)

end PrecompiledDesign

end FpgaFlow
