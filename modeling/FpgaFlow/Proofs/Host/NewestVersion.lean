import FpgaFlow.Proofs.Host.Installation

/-!
# Which version is found below a root

The versions below a root are the entries of its directory that are directories themselves
and are named by decimals (`View.Installed`).  The one that is found is the newest of them
(`View.isNewest_of_newestVersion`), so it depends on nothing else in the tree.

`View.newestListed` goes through a listing of the root entry by entry.  It finds the same
version, in whatever order the entries are listed.

**Main statement** (`View.newestVersion_finds`): when a version is found, and that it is the
largest one whatever the order of the listing and whatever else is below the root.
-/

namespace FpgaFlow.View

open Version (IsDecimal IsNewest value)

variable {v w : View} {root : Path} {x : Version}

/-- An entry of a root that is a directory and is named by a decimal. -/
structure Installed (v : View) (root : Path) (name : String) : Prop where
  listed : ∃ names, v.list root = .ok names ∧ name ∈ names
  directory : v.isDirectory (root.child name) = true
  decimal : IsDecimal name

/-- A version that an entry of a root is named by. -/
def HasVersion (v : View) (root : Path) (x : Version) : Prop :=
  v.Installed root x.text ∧ Version.parse? x.text = some x

theorem hasVersion_of_parse? {name : String} (hname : Version.parse? name = some x) :
    v.HasVersion root x ↔ v.Installed root name := by
  rw [HasVersion, Version.text_of_parse? hname, and_iff_left hname]

theorem exists_hasVersion {name : String} (h : v.Installed root name) :
    ∃ x, Version.parse? name = some x ∧ v.HasVersion root x := by
  obtain ⟨x, hx⟩ := (Version.orderNumeric_exact.1 name).2 h.decimal
  exact ⟨x, hx, (hasVersion_of_parse? hx).2 h⟩

/-- The entries that are versions, out of a listing of a root. -/
theorem candidate_iff {names listing : List String} (hlist : v.list root = .ok names)
    (hperm : listing.Perm names) :
    (∃ name ∈ listing, Version.Candidate (fun name => v.isDirectory (root.child name)) name x) ↔
      v.HasVersion root x := by
  constructor
  · rintro ⟨name, hname, hparse, hdirectory⟩
    refine (hasVersion_of_parse? hparse).2 ⟨⟨names, hlist, hperm.mem_iff.1 hname⟩, hdirectory, ?_⟩
    exact (Version.parse?_eq_some_iff.1 hparse).1
  · rintro ⟨⟨⟨names', hlist', hmem⟩, hdirectory, -⟩, hparse⟩
    obtain rfl := Except.ok.inj (hlist.symm.trans hlist')
    exact ⟨x.text, hperm.mem_iff.2 hmem, hparse, hdirectory⟩

theorem mem_installedVersions : x ∈ v.installedVersions root ↔ v.HasVersion root x := by
  cases hlist : v.list root with
  | error e =>
    rw [installedVersions, hlist]
    refine iff_of_false List.not_mem_nil ?_
    rintro ⟨⟨⟨names, hnames, -⟩, -, -⟩, -⟩
    rw [hlist] at hnames
    cases hnames
  | ok names =>
    rw [← candidate_iff hlist (List.Perm.refl names), installedVersions, hlist]
    simp only [List.mem_filterMap, List.mem_filter, Version.Candidate]
    refine exists_congr fun name => ?_
    rw [and_assoc, and_comm (a := v.isDirectory (root.child name) = true)]

/-- **The newest of the versions below a root.** -/
theorem isNewest_installedVersions (v : View) (root : Path) :
    IsNewest (v.HasVersion root) (Version.newest? (v.installedVersions root)) :=
  (Version.isNewest_newest? (v.installedVersions root)).congr fun _ => mem_installedVersions

theorem isNewest_of_newestVersion {r : Version} (h : v.newestVersion root = .ok r) :
    IsNewest (v.HasVersion root) (some r) := by
  rw [← newestVersion_eq_ok_iff.1 h]
  exact v.isNewest_installedVersions root

theorem isNewest_of_newestVersion_eq_error {fault : Fault}
    (h : v.newestVersion root = .error fault) : IsNewest (v.HasVersion root) none := by
  have hnewest := v.isNewest_installedVersions root
  cases hfound : Version.newest? (v.installedVersions root) with
  | none => exact hfound ▸ hnewest
  | some r =>
    rw [newestVersion_eq_ok_iff.2 hfound] at h
    cases h

/-! ### Listings -/

/-- The version that is found by going through a listing of a root from its beginning. -/
def newestListed (v : View) (root : Path) (listing : List String) : Except Fault Version :=
  match listing.foldl (Version.visit fun name => v.isDirectory (root.child name)) none with
  | some version => .ok version
  | none => .error (.toolchainNotFound root)

theorem newestListed_eq {names listing : List String} (hlist : v.list root = .ok names)
    (hperm : listing.Perm names) : v.newestListed root listing = v.newestVersion root := by
  have hnone : IsNewest (fun _ => False) none := fun _ => id
  have hlisted := (hnone.foldl_visit (fun name => v.isDirectory (root.child name)) listing).congr
    fun x => (false_or _).to_iff.trans (candidate_iff hlist hperm)
  rw [newestListed, hlisted.unique (v.isNewest_installedVersions root)]
  rfl

/-! ### What the answer depends on -/

/-- A name of a version that is smaller than the one that is found. -/
def Outdated (v : View) (root : Path) (name : String) : Prop :=
  ∃ x r, Version.parse? name = some x ∧ v.newestVersion root = .ok r ∧ Version.order x r = .lt

theorem newestVersion_congr (hsame : ∀ name,
    (w.Installed root name ↔ v.Installed root name) ∨ v.Outdated root name) :
    w.newestVersion root = v.newestVersion root := by
  have hnewest : IsNewest (w.HasVersion root) (Version.newest? (v.installedVersions root)) := by
    refine (v.isNewest_installedVersions root).congr_of_lt fun x => ?_
    by_cases hx : Version.parse? x.text = some x
    · rcases hsame x.text with hiff | ⟨x', r, hx', hr, hlt⟩
      · exact .inl (and_congr_left' hiff.symm)
      · obtain rfl := Option.some.inj (hx.symm.trans hx')
        exact .inr ⟨r, newestVersion_eq_ok_iff.1 hr, hlt⟩
    · exact .inl (iff_of_false (fun h => hx h.2) fun h => hx h.2)
  rw [newestVersion, newestVersion, (w.isNewest_installedVersions root).unique hnewest]

/-- Which version is found below a root. -/
structure Finds (v : View) (root : Path) : Prop where
  /-- None is found exactly if the root cannot be listed or has no directory that is named by a
  decimal. -/
  fails_iff : v.newestVersion root = .error (.toolchainNotFound root) ↔
    (∀ names, v.list root ≠ .ok names) ∨ ∀ name, ¬ v.Installed root name
  /-- Otherwise one of these directories is, and no other one has a larger version or a larger
  number. -/
  largest : (∃ name, v.Installed root name) → ∃ r, v.newestVersion root = .ok r ∧
    v.Installed root r.text ∧ Version.parse? r.text = some r ∧
    ∀ name x, v.Installed root name → Version.parse? name = some x →
      (Version.order x r).isLE = true ∧ value name ≤ value r.text
  /-- The entries may be listed in any order. -/
  anyOrder : ∀ names listing, v.list root = .ok names → listing.Perm names →
    v.newestListed root listing = v.newestVersion root
  /-- Another tree has the same answer if it differs in files, in names that are no decimals and
  in versions smaller than the answer. -/
  unmoved : ∀ w : View, (∀ name, (w.Installed root name ↔ v.Installed root name) ∨
    v.Outdated root name) → w.newestVersion root = v.newestVersion root

/-- **The version that is found is the largest of the directories named by decimals.** -/
theorem newestVersion_finds (v : View) (root : Path) : Finds v root := by
  constructor
  case fails_iff =>
    cases hfound : v.newestVersion root with
    | error fault =>
      have hnone := isNewest_of_newestVersion_eq_error hfound
      refine iff_of_true (by rw [eq_of_newestVersion_eq_error hfound]) (.inr fun name hname => ?_)
      obtain ⟨x, -, hx⟩ := exists_hasVersion hname
      exact hnone x hx
    | ok r =>
      obtain ⟨⟨hr, -⟩, -⟩ := isNewest_of_newestVersion hfound
      refine iff_of_false (fun h => by cases h) ?_
      rintro (hlist | hnot)
      · obtain ⟨names, hnames, -⟩ := hr.listed
        exact hlist names hnames
      · exact hnot r.text hr
  case largest =>
    rintro ⟨name, hname⟩
    obtain ⟨x, -, hx⟩ := exists_hasVersion hname
    cases hfound : v.newestVersion root with
    | error fault => exact absurd hx (isNewest_of_newestVersion_eq_error hfound x)
    | ok r =>
      obtain ⟨⟨hr, hparse⟩, hlargest⟩ := isNewest_of_newestVersion hfound
      refine ⟨r, rfl, hr, hparse, fun name' x' hname' hparse' => ?_⟩
      have hle := hlargest x' ((hasVersion_of_parse? hparse').2 hname')
      exact ⟨hle, Version.value_le_of_isLE hparse' hparse hle⟩
  case anyOrder => exact fun names listing hlist hperm => newestListed_eq hlist hperm
  case unmoved => exact fun w hsame => newestVersion_congr hsame

/-- Of two spellings of the largest number the longer one is found, and a file does not count. -/
example : (newestVersion
    ⟨(((FileTree.empty.plant ["opt", "9.1", "a"] (.file (.text "") false)).plant
      ["opt", "14.7", "a"] (.file (.text "") false)).plant
      ["opt", "14.70", "a"] (.file (.text "") false)).plant
      ["opt", "15.0"] (.file (.text "") false), []⟩ ⟨"/opt"⟩).toOption.map Version.text =
      some "14.70" := by
  decide +kernel

end FpgaFlow.View
