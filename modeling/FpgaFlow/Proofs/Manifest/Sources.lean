import FpgaFlow.Proofs.Command.Plan
import FpgaFlow.Proofs.Glob.Selection

/-!
# Further sources of a design

The patterns of a manifest stand for a list of files that depends on the patterns as a
set (`View.Lists`).  The further sources are those files of the list whose extension
belongs to a language, in the same order (`extraSources_eq_ok_iff`).

**Main statement** `sources_listed`: the list, how it depends on the patterns, and
the sources that are taken from it.
-/

namespace FpgaFlow

namespace Language

/-- The extensions of the files of a language, in lower case. -/
def extensions : Language → List String
  | verilog => ["v", "vh", "sv"]
  | vhdl => ["vhd", "vhdl"]

/-- A path has an extension of a language; the case of ASCII letters does not matter. -/
def Owns (l : Language) (q : Path) : Prop :=
  Text.lowerAscii (q.extension?.getD "") ∈ l.extensions

instance (l : Language) (q : Path) : Decidable (l.Owns q) :=
  inferInstanceAs (Decidable (_ ∈ _))

theorem ofExtension?_eq_some_iff {extension : String} {l : Language} :
    ofExtension? extension = some l ↔ Text.lowerAscii extension ∈ l.extensions := by
  rw [ofExtension?]
  split <;> cases l <;> simp_all [extensions]

end Language

namespace PrecompiledDesign

open Glob View

theorem asSource?_eq_some_iff {q : Path} {s : SourceFile} :
    asSource? q = some s ↔ s.path = q ∧ s.language.Owns q := by
  rw [asSource?, Option.map_eq_some_iff]
  constructor
  · rintro ⟨language, hlanguage, rfl⟩
    exact ⟨rfl, Language.ofExtension?_eq_some_iff.1 hlanguage⟩
  · rintro ⟨rfl, howns⟩
    exact ⟨s.language, Language.ofExtension?_eq_some_iff.2 howns, rfl⟩

/-- Whether a file is a source: its extension belongs to a language. -/
def isSource (q : Path) : Bool :=
  decide (∃ l ∈ [Language.verilog, Language.vhdl], l.Owns q)

theorem isSource_eq (q : Path) : isSource q = (asSource? q).isSome := by
  rw [Bool.eq_iff_iff, isSource, decide_eq_true_iff, Option.isSome_iff_exists]
  constructor
  · rintro ⟨l, -, howns⟩
    exact ⟨⟨q, l⟩, asSource?_eq_some_iff.2 ⟨rfl, howns⟩⟩
  · rintro ⟨s, hs⟩
    obtain ⟨-, howns⟩ := asSource?_eq_some_iff.1 hs
    refine ⟨s.language, ?_, howns⟩
    cases s.language <;> simp

/-- The sources among files are determined by their paths and languages. -/
theorem eq_filterMap_asSource?_iff {files : List Path} {sources : List SourceFile} :
    files.filterMap asSource? = sources ↔
      sources.map SourceFile.path = files.filter isSource ∧
        ∀ s ∈ sources, s.language.Owns s.path := by
  have hkept : files.filter isSource = files.filter fun q => (asSource? q).isSome :=
    List.filter_congr fun q _ => isSource_eq q
  constructor
  · rintro rfl
    constructor
    · rw [List.map_filterMap, hkept, ← List.filterMap_eq_filter]
      refine List.filterMap_congr fun q _ => ?_
      cases hq : asSource? q with
      | none => simp [Option.guard, hq]
      | some s => simp [Option.guard, hq, path_of_asSource? hq]
    · intro s hs
      obtain ⟨q, -, hq⟩ := List.mem_filterMap.1 hs
      obtain ⟨rfl, howns⟩ := asSource?_eq_some_iff.1 hq
      exact howns
  · rintro ⟨hpaths, howns⟩
    have hsource : ∀ s ∈ sources, asSource? s.path = some s := fun s hs =>
      asSource?_eq_some_iff.2 ⟨rfl, howns s hs⟩
    rw [filterMap_asSource?, ← hkept, ← hpaths, List.filterMap_map, Function.comp_def,
      List.filterMap_congr hsource, List.filterMap_some]

theorem extraSources_eq_map (d : PrecompiledDesign) (v : View) : d.extraSources v =
    (v.findFiles d.root d.manifest.design.sources).map fun files => files.filterMap asSource? := by
  rw [extraSources]
  cases v.findFiles d.root d.manifest.design.sources <;> rfl

/-- **The further sources** are the files in a known language, each with that language and in the
order of the files. -/
theorem extraSources_eq_ok_iff {d : PrecompiledDesign} {v : View} {sources : List SourceFile} :
    d.extraSources v = .ok sources ↔
      ∃ files, v.findFiles d.root d.manifest.design.sources = .ok files ∧
        sources.map SourceFile.path = files.filter isSource ∧
        ∀ s ∈ sources, s.language.Owns s.path := by
  rw [extraSources_eq_map, map_eq_ok_iff]
  simp only [eq_filterMap_asSource?_iff]

theorem exists_extraSources_iff {d : PrecompiledDesign} {v : View} :
    (∃ sources, d.extraSources v = .ok sources) ↔
      ∀ pattern ∈ d.manifest.design.sources, Readable d.root pattern := by
  rw [← exists_findFiles_iff (v := v), extraSources_eq_map, exists_map_eq_ok_iff]

/-- **The files that patterns stand for** are listed in the order of paths, and the list depends on
the patterns as a set: up to spelling it is the same in whatever order they are given and how often,
and with more patterns no file is lost. A pattern that cannot be read leaves no list. The further
sources of a design are those of its files that are in a known language. -/
theorem sources_listed (v : View) (base : Path) (patterns : List String) :
    ((∀ pattern ∈ patterns, Readable base pattern) →
      ∃ files, v.findFiles base patterns = .ok files ∧ v.Lists base patterns files ∧
        (files.map Path.components).Nodup ∧
        (∀ others, (∀ pattern, pattern ∈ others ↔ pattern ∈ patterns) →
          ∃ files', v.findFiles base others = .ok files' ∧
            files'.map Path.components = files.map Path.components) ∧
        ∀ more files', (∀ pattern ∈ patterns, pattern ∈ more) →
          v.findFiles base more = .ok files' → ∀ q ∈ files, ∃ r ∈ files', r.same q = true) ∧
    ((∃ pattern ∈ patterns, ¬ Readable base pattern) →
      ∃ f, v.findFiles base patterns = .error f) ∧
    ∀ d : PrecompiledDesign,
      ((∃ sources, d.extraSources v = .ok sources) ↔
        ∀ pattern ∈ d.manifest.design.sources, Readable d.root pattern) ∧
      ∀ sources, d.extraSources v = .ok sources ↔
        ∃ files, v.findFiles d.root d.manifest.design.sources = .ok files ∧
          sources.map SourceFile.path = files.filter isSource ∧
          ∀ s ∈ sources, s.language.Owns s.path := by
  refine ⟨fun hreadable => ?_, ?_,
    fun d => ⟨exists_extraSources_iff, fun sources => extraSources_eq_ok_iff⟩⟩
  · obtain ⟨files, hfiles⟩ := exists_findFiles_iff.2 hreadable
    have hlists := lists_of_findFiles hfiles
    refine ⟨files, hfiles, hlists, hlists.nodup, ?_, ?_⟩
    · intro others hothers
      obtain ⟨files', hfiles'⟩ := exists_findFiles_iff (v := v) |>.2
        fun pattern hpattern => hreadable pattern ((hothers pattern).1 hpattern)
      exact ⟨files', hfiles', (lists_of_findFiles hfiles').components_eq hlists hothers⟩
    · intro more files' hmore hfiles' q hq
      exact hlists.mono (lists_of_findFiles hfiles') hmore hq
  · rintro ⟨pattern, hpattern, hnot⟩
    cases hfiles : v.findFiles base patterns with
    | error f => exact ⟨f, rfl⟩
    | ok files => exact absurd (exists_findFiles_iff.1 ⟨files, hfiles⟩ pattern hpattern) hnot

/-- Two sources, one of them below the other's directory. -/
def sourceTree : View :=
  ⟨(FileTree.empty.plant ["p", "a.v"] (.file (.text "") false)).plant ["p", "sub", "b.VHD"]
    (.file (.text "") false), []⟩

/-- Patterns that stand for some of the sources more than once. -/
def overlappingPatterns : List String :=
  ["**/*.VHD", "*.v", "./a.v", "sub/*"]

/-- What the patterns find, one after the other. -/
def foundSources : List Path :=
  [⟨"/p/sub/b.VHD"⟩, ⟨"/p/a.v"⟩, ⟨"/p/./a.v"⟩, ⟨"/p/sub/b.VHD"⟩]

/-- The sources that the patterns stand for, in the order of paths. -/
def overlappingSources : List Path :=
  [⟨"/p/a.v"⟩, ⟨"/p/sub/b.VHD"⟩]

/-- Both sources are found, in whatever order the patterns are given, and none is found twice. -/
theorem listed_overlappingPatterns :
    (∀ pattern ∈ overlappingPatterns, Readable ⟨"/p"⟩ pattern) ∧ ¬ Readable ⟨"/p"⟩ "a**" ∧
    sourceTree.findFiles ⟨"/p"⟩ overlappingPatterns = .ok overlappingSources ∧
    sourceTree.Lists ⟨"/p"⟩ overlappingPatterns overlappingSources ∧
    (∃ files', sourceTree.findFiles ⟨"/p"⟩ overlappingPatterns.reverse = .ok files' ∧
      files'.map Path.components = overlappingSources.map Path.components) ∧
    ∃ f, sourceTree.findFiles ⟨"/p"⟩ ("a**" :: overlappingPatterns) = .error f := by
  have hreadable : ∀ pattern ∈ overlappingPatterns, Readable ⟨"/p"⟩ pattern := by
    decide +kernel
  have hnot : ¬ Readable ⟨"/p"⟩ "a**" := by
    decide +kernel
  have hgather : sourceTree.gather ⟨"/p"⟩ overlappingPatterns = .ok foundSources :=
    eq_ok_of_toOption (by decide +kernel)
  have hkept : View.kept foundSources = overlappingSources :=
    View.kept_eq (by decide +kernel) (by decide +kernel) (by decide +kernel)
  have hfound : sourceTree.findFiles ⟨"/p"⟩ overlappingPatterns = .ok overlappingSources := by
    rw [View.findFiles_eq, hgather, ← hkept]
    rfl
  obtain ⟨files, hfiles, hlists, -, hothers, -⟩ :=
    (sources_listed sourceTree ⟨"/p"⟩ overlappingPatterns).1 hreadable
  obtain rfl : files = overlappingSources := Except.ok.inj (hfiles.symm.trans hfound)
  have hreverse := hothers overlappingPatterns.reverse fun pattern => List.mem_reverse
  refine ⟨hreadable, hnot, hfound, hlists, hreverse, ?_⟩
  exact (sources_listed sourceTree ⟨"/p"⟩ ("a**" :: overlappingPatterns)).2.1
    ⟨"a**", List.mem_cons_self, hnot⟩

end PrecompiledDesign

end FpgaFlow
