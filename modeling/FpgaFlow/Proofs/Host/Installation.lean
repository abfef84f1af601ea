import FpgaFlow.Inspection
import FpgaFlow.Proofs.Tree.Detours
import FpgaFlow.Proofs.Version.Newest

/-!
# What is found below an installation root

The versions that are installed below a root are read off the names in its directory
(`View.installedVersions_eq`), and the settings script of a version is looked for below
the root as well.  So trees that do not differ there have the same newest version with
the same script (`SameBelow.newestVersion`, `SameBelow.settingsScript`).

An inspection reports this version and this script (`Host.version_inspect`,
`Host.settings?_inspect`), and the commands that set up the tools name the script
(`View.environmentCommands_eq`).
-/

namespace FpgaFlow

open FileTree (IsName)

/-- The settings script of a version below a root, for a width of host. -/
def settingsPath (root : Path) (version : String) (bits : Nat) : Path :=
  ((root.child version).child "ISE_DS").child (settingsName bits)

/-- The way from a root to the settings script of a version. -/
def settingsWay (version : String) (bits : Nat) : Location :=
  [version, "ISE_DS", settingsName bits]

namespace View

variable {v : View} {root : Path} {version : Version}

theorem list_eq_ok_iff {p : Path} {names : List String} : v.list p = .ok names ↔
    ∃ l, v.resolve p = .ok l ∧ v.tree.lookup l = some .directory ∧ names = v.tree.names l := by
  rw [list]
  constructor
  · intro h
    obtain ⟨l, hl, h⟩ := bind_eq_ok_iff.1 h
    obtain ⟨u, hu, h⟩ := bind_eq_ok_iff.1 h
    exact ⟨l, hl, expectDirectory_eq_ok_iff.1 hu, (Except.ok.inj h).symm⟩
  · rintro ⟨l, hl, hdirectory, rfl⟩
    refine bind_eq_ok_iff.2 ⟨l, hl, bind_eq_ok_iff.2 ⟨(), ?_, rfl⟩⟩
    exact expectDirectory_eq_ok_iff.2 hdirectory

/-- **The installed versions are the directories of a root that are named by versions.** -/
theorem installedVersions_eq (hroot : root.isAbsolute = true) :
    v.installedVersions root =
      if v.isDirectory root then
        ((v.tree.names root.location).filter fun name =>
          v.tree.lookup (root.location ++ [name]) = some .directory).filterMap Version.parse?
      else [] := by
  rw [installedVersions]
  cases hd : v.isDirectory root with
  | false =>
    cases hlist : v.list root with
    | error e => rfl
    | ok names =>
      obtain ⟨l, hl, hdirectory, -⟩ := list_eq_ok_iff.1 hlist
      rw [isDirectory_iff.2 ⟨l, hl, hdirectory⟩] at hd
      cases hd
  | true =>
    obtain ⟨l, hl, hdirectory⟩ := isDirectory_iff.1 hd
    obtain rfl := location_of_resolve hroot hl
    rw [list_eq_ok_iff.2 ⟨_, hl, hdirectory, rfl⟩, if_pos rfl]
    refine congrArg (List.filterMap Version.parse?) (List.filter_congr fun name hname => ?_)
    have hnames : ∀ s ∈ [name], IsName s := fun s hs =>
      FileTree.isName_of_lookup (Option.isSome_iff_ne_none.1 (FileTree.mem_names.1 hname))
        (List.mem_append_right _ hs)
    have hchild : down root [name] = root.child name := down_eq_foldl_child hroot _
    rw [Bool.eq_iff_iff, decide_eq_true_iff, isDirectory_iff_find, ← hchild]
    exact find_down_location hroot hd hnames

/-- A version is only found below a directory with something in it, and it is named there. -/
theorem of_mem_installedVersions (hroot : root.isAbsolute = true)
    (h : version ∈ v.installedVersions root) :
    v.isDirectory root = true ∧ v.tree.contents root.location ≠ [] ∧ IsName version.text := by
  rw [installedVersions_eq hroot] at h
  split at h
  next hd =>
    obtain ⟨name, hname, hparse⟩ := List.mem_filterMap.1 h
    obtain ⟨hmem, -⟩ := List.mem_filter.1 hname
    have hthere := FileTree.mem_names.1 hmem
    refine ⟨hd, fun hnil => ?_, ?_⟩
    · rw [FileTree.names, hnil] at hmem
      cases hmem
    · rw [Version.text_of_parse? hparse]
      exact FileTree.isName_of_lookup (Option.isSome_iff_ne_none.1 hthere) (by simp)
  next => cases h

theorem newestVersion_eq_ok_iff :
    v.newestVersion root = .ok version ↔
      Version.newest? (v.installedVersions root) = some version := by
  rw [newestVersion]
  cases Version.newest? (v.installedVersions root) <;> simp

theorem eq_of_newestVersion_eq_error {fault : Fault} (h : v.newestVersion root = .error fault) :
    fault = .toolchainNotFound root := by
  rw [newestVersion] at h
  split at h
  next => cases h
  next => exact (Except.error.inj h).symm

theorem of_newestVersion (hroot : root.isAbsolute = true)
    (h : v.newestVersion root = .ok version) :
    v.isDirectory root = true ∧ v.tree.contents root.location ≠ [] ∧ IsName version.text :=
  of_mem_installedVersions hroot (Version.mem_of_newest? (newestVersion_eq_ok_iff.1 h))

theorem down_settingsWay (hroot : root.isAbsolute = true) (version : String) (bits : Nat) :
    down root (settingsWay version bits) = settingsPath root version bits :=
  down_eq_foldl_child hroot _

theorem isName_of_mem_settingsWay {name : String} (h : IsName name) {bits : Nat}
    (hbits : IsName (settingsName bits)) : ∀ s ∈ settingsWay name bits, IsName s := by
  have hdirectory : IsName "ISE_DS" := by decide
  simp [settingsWay, h, hdirectory, hbits]

/-- On a host of 64 bits the script is the one for that width, or the one for 32 bits. -/
theorem settingsScript_cases (v : View) (root : Path) (version : Version) :
    v.settingsScript root version hostBits = settingsPath root version.text 64 ∨
      v.settingsScript root version hostBits = settingsPath root version.text 32 := by
  rw [settingsScript]
  split
  next => exact .inr rfl
  next => exact .inl rfl

/-- **The commands that set up the tools** name the settings script of the newest version. -/
theorem environmentCommands_eq (v : View) (root : Path) :
    v.environmentCommands root true = (v.newestVersion root).map fun version =>
      ["source " ++ (v.settingsScript root version hostBits).text] := by
  rw [environmentCommands]
  cases v.newestVersion root <;> rfl

end View

namespace SameBelow

variable {v w : View} {root : Path} {version : Version}

theorem installedVersions (hroot : root.isAbsolute = true)
    (h : SameBelow v.tree w.tree root) :
    w.installedVersions root = v.installedVersions root := by
  have hnames : w.tree.names root.location = v.tree.names root.location := by
    rw [FileTree.names, FileTree.names, h.contents]
  rw [View.installedVersions_eq hroot, View.installedVersions_eq hroot, hnames]
  by_cases hne : v.tree.contents root.location = []
  · have hnone : v.tree.names root.location = [] := by
      rw [FileTree.names, hne]
      rfl
    simp [hnone]
  · simp only [h.isDirectory hroot hne, h.lookup (List.cons_ne_nil _ [])]

theorem newestVersion (hroot : root.isAbsolute = true) (h : SameBelow v.tree w.tree root) :
    w.newestVersion root = v.newestVersion root := by
  rw [View.newestVersion, View.newestVersion, h.installedVersions hroot]

/-- The scripts of an installed version are found in both trees. -/
theorem find_settingsPath (hroot : root.isAbsolute = true) (h : SameBelow v.tree w.tree root)
    (hversion : v.newestVersion root = .ok version) {bits : Nat}
    (hbits : IsName (settingsName bits)) {e : Entry} :
    w.find (settingsPath root version.text bits) = .ok e ↔
      v.find (settingsPath root version.text bits) = .ok e := by
  obtain ⟨hv, hne, hname⟩ := View.of_newestVersion hroot hversion
  have hw : w.isDirectory root = true := (h.isDirectory hroot hne).trans hv
  rw [← View.down_settingsWay hroot]
  exact h.find_down hroot hv hw (List.cons_ne_nil _ _) (View.isName_of_mem_settingsWay hname hbits)

theorem settingsScript (hroot : root.isAbsolute = true) (h : SameBelow v.tree w.tree root)
    (hversion : v.newestVersion root = .ok version) :
    w.settingsScript root version hostBits = v.settingsScript root version hostBits := by
  have hexists : w.exists_ (settingsPath root version.text hostBits) =
      v.exists_ (settingsPath root version.text hostBits) := by
    rw [Bool.eq_iff_iff, View.exists_iff_find, View.exists_iff_find]
    exact exists_congr fun e => h.find_settingsPath hroot hversion (by decide)
  rw [settingsPath] at hexists
  simp only [View.settingsScript, hexists]

theorem environmentCommands (hroot : root.isAbsolute = true)
    (h : SameBelow v.tree w.tree root) :
    w.environmentCommands root true = v.environmentCommands root true := by
  rw [View.environmentCommands_eq, View.environmentCommands_eq, h.newestVersion hroot]
  cases hversion : v.newestVersion root with
  | error fault => simp only [Except.map]
  | ok version => simp only [Except.map, h.settingsScript hroot hversion]

theorem isFile_settingsScript (hroot : root.isAbsolute = true)
    (h : SameBelow v.tree w.tree root) (hversion : v.newestVersion root = .ok version) :
    w.isFile (v.settingsScript root version hostBits) =
      v.isFile (v.settingsScript root version hostBits) := by
  rw [Bool.eq_iff_iff, View.isFile_iff_find, View.isFile_iff_find]
  refine exists_congr fun c => exists_congr fun x => ?_
  rcases v.settingsScript_cases root version with hscript | hscript
  · rw [hscript]
    exact h.find_settingsPath hroot hversion (by decide)
  · rw [hscript]
    exact h.find_settingsPath hroot hversion (by decide)

end SameBelow

/-! ### Reports -/

/-- The path of the settings script that an inspection shows. -/
def Inspection.settings? (i : Inspection) : Option Path :=
  (i.checks.find? fun c => c.name = "settings script").bind Check.path

namespace Host

variable (h : Host) (root : Path)

theorem version_inspect :
    (h.inspect root).version = (h.newestVersion root).toOption.map Version.text := by
  rw [inspect, Inspection.installationChecks]
  cases h.newestVersion root <;> rfl

theorem settings?_inspect : (h.inspect root).settings? =
    (h.newestVersion root).toOption.map fun version =>
      h.settingsScript root version hostBits := by
  rw [inspect, Inspection.installationChecks, Inspection.settings?]
  cases h.newestVersion root with
  | error fault => simp [Inspection.programCheck, Inspection.tools, Except.toOption]
  | ok version => simp [Except.toOption]

/-- **What the required checks promise**: a version with a settings script that is a file. -/
theorem isFile_of_allRequiredPassed (hpassed : (h.inspect root).allRequiredPassed = true) :
    ∃ version, h.newestVersion root = .ok version ∧
      h.isFile (h.settingsScript root version hostBits) = true := by
  rw [inspect, Inspection.installationChecks, Inspection.allRequiredPassed] at hpassed
  cases hversion : h.newestVersion root with
  | error fault =>
    rw [hversion] at hpassed
    cases hpassed
  | ok version =>
    rw [hversion] at hpassed
    refine ⟨version, rfl, ?_⟩
    rw [List.all_eq_true] at hpassed
    have hscript := hpassed _ (List.mem_filter.2 ⟨List.mem_append_left _
      (List.mem_append_left _ (List.mem_cons_of_mem _ List.mem_cons_self)), rfl⟩)
    exact hscript

end Host

end FpgaFlow
