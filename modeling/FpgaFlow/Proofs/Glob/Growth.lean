import FpgaFlow.Proofs.Glob.Steps

/-!
# Patterns in growing trees

When a tree grows a pattern finds more than before, but among what it finds there
is nothing that was there before and was not found (`View.search_of_grows`).  So the
files that a pattern finds in the smaller tree are those it finds in the larger one
which were files before, in the same order (`View.filesOf_of_grows`).
-/

namespace FpgaFlow

open FileTree (Grows IsName)

namespace View

open Glob

variable {v w : View} {dir q : Path} {name : String}

/-- What a search finds in one tree is in another tree only below directories of that tree. -/
theorem above_of_mem_search {ps : List Pattern} (hps : ∀ p ∈ ps, p.Plain)
    (hdir : dir.isAbsolute = true) (hq : q ∈ w.search ps dir) (hthere : v.exists_ q = true) :
    v.exists_ dir = true ∧ (ps ≠ [] → v.isDirectory dir = true) := by
  have hanchored := Path.anchored_of_isAbsolute hdir
  obtain ⟨r, hr, rfl⟩ := (mem_search_iff hps hanchored).1 hq
  by_cases hne : r = []
  · subst hne
    exact ⟨hthere, fun h => absurd ((hr.eq_nil_iff hps).1 rfl) h⟩
  · have hdirectory := isDirectory_of_exists_down hanchored (hr.slash_notMem hps) hne hthere
    exact ⟨exists_of_isDirectory hdirectory, fun _ => hdirectory⟩

/-! ### Searching a grown tree -/

theorem flatMap_filter_eq {α β : Type} (P : α → Bool) (F : α → List β) (as : List α) :
    (as.filter P).flatMap F = as.flatMap fun a => if P a then F a else [] := by
  induction as with
  | nil => rfl
  | cons a as ih =>
    rw [List.flatMap_cons, ← ih, List.filter_cons]
    cases P a with
    | true => rfl
    | false => rfl

/-- The ways below a directory of the smaller tree are those of the larger one that it has. -/
theorem descents_of_grows (hg : v.tree.Grows w.tree) (hdir : dir.isAbsolute = true)
    (hd : v.isDirectory dir = true) :
    v.descents dir = (w.descents dir).filter fun r => v.exists_ (down dir r) := by
  obtain ⟨d, hv, hdirectory⟩ := isDirectory_iff.1 hd
  have hw : w.resolve dir = .ok d :=
    resolve_of_grows hg (by rw [start_eq_nil hdir, start_eq_nil hdir]) hv
  rw [descents_eq hv, FileTree.locations_of_grows hg, ← descents_eq hw]
  refine List.filter_congr fun r hr => ?_
  obtain ⟨-, hnames⟩ := of_mem_descents hr
  rw [exists_down (Path.anchored_of_isAbsolute hdir) hnames hv hdirectory]

theorem namesIn_of_grows (hg : v.tree.Grows w.tree) (hdir : dir.isAbsolute = true)
    (hd : v.isDirectory dir = true) :
    v.namesIn dir = (w.namesIn dir).filter fun name => v.exists_ (below dir name) := by
  obtain ⟨d, hv, hdirectory⟩ := isDirectory_iff.1 hd
  have hw : w.resolve dir = .ok d :=
    resolve_of_grows hg (by rw [start_eq_nil hdir, start_eq_nil hdir]) hv
  rw [namesIn_eq hv hdirectory, FileTree.names_of_grows hg,
    ← namesIn_eq hw (hg.directory hdirectory)]
  refine List.filter_congr fun name hname => ?_
  have hnames : ∀ s ∈ [name], IsName s := fun s hs => by
    rw [List.mem_singleton.1 hs]
    exact isName_of_mem_namesIn hname
  exact (exists_down (Path.anchored_of_isAbsolute hdir) hnames hv hdirectory).symm

theorem leadsTo_of_grows (hg : v.tree.Grows w.tree) (hdir : dir.isAbsolute = true)
    (hslash : '/' ∉ name.toList) :
    v.leadsTo dir name = (w.leadsTo dir name && v.exists_ (dir.child name)) := by
  have hstart (p : Path) (hp : p.isAbsolute = true) : w.start p = v.start p := by
    rw [start_eq_nil hp, start_eq_nil hp]
  rw [Bool.eq_iff_iff, Bool.and_eq_true, leadsTo, leadsTo,
    below_eq_child (Path.anchored_of_isAbsolute hdir)]
  split
  next hspecial =>
    constructor
    · intro hd
      exact ⟨isDirectory_of_grows hg (hstart dir hdir) hd,
        exists_child_of_special (Path.text_ne_empty_of_isAbsolute hdir) hspecial hd⟩
    · rintro ⟨-, hthere⟩
      exact isDirectory_of_exists_child (Path.text_ne_empty_of_isAbsolute hdir) hslash hthere
  next =>
    constructor
    · intro hthere
      exact ⟨exists_of_grows hg (hstart _ (Path.isAbsolute_child hdir name)) hthere, hthere⟩
    · exact fun h => h.2

theorem isDirectory_eq_of_exists (hg : v.tree.Grows w.tree) (hq : q.isAbsolute = true)
    (h : v.exists_ q = true) : w.isDirectory q = v.isDirectory q := by
  have hstart : w.start q = v.start q := by rw [start_eq_nil hq, start_eq_nil hq]
  obtain ⟨l, e, hl, he⟩ := exists_iff.1 h
  have hv := find_eq_ok_iff.2 ⟨l, hl, he⟩
  cases e with
  | directory =>
    have hd : v.isDirectory q = true := isDirectory_iff.2 ⟨l, hl, he⟩
    rw [hd, isDirectory_of_grows hg hstart hd]
  | file c x =>
    obtain ⟨c', he'⟩ := hg.file he
    have hw := find_eq_ok_iff.2 ⟨l, resolve_of_grows hg hstart hl, he'⟩
    rw [isDirectory, isDirectory, hv, hw]

/-- Of what patterns find in `w` they find in `v` what is there. -/
def Narrows (v w : View) (ps : List Pattern) (dir : Path) : Prop :=
  (w.search ps dir).filter v.exists_ = if v.exists_ dir then v.search ps dir else []

section

variable {p : Pattern} {ps : List Pattern}

theorem Narrows.search_eq (h : Narrows v w ps dir) (hthere : v.exists_ dir = true) :
    (w.search ps dir).filter v.exists_ = v.search ps dir :=
  h.trans (if_pos hthere)

/-- Nothing that is there is found below what is no directory. -/
theorem filter_search_eq_nil (hps : ∀ p ∈ ps, p.Plain) (hdir : dir.isAbsolute = true)
    (h : v.exists_ dir = false ∨ ps ≠ [] ∧ v.isDirectory dir = false) :
    (w.search ps dir).filter v.exists_ = [] := by
  refine List.filter_eq_nil_iff.2 fun q hq hthere => ?_
  obtain ⟨hexists, hdirectory⟩ := above_of_mem_search hps hdir hq hthere
  rcases h with h | ⟨hne, h⟩
  · rw [hexists] at h
    cases h
  · rw [hdirectory hne] at h
    cases h

/-- A component without wild cards leads on where its name is there. -/
theorem filter_search_literal (hg : v.tree.Grows w.tree) (hdir : dir.isAbsolute = true)
    (hliteral : p.literal? = some name) (hslash : '/' ∉ name.toList)
    (hnext : Narrows v w ps (dir.child name)) :
    (w.search (p :: ps) dir).filter v.exists_ = v.search (p :: ps) dir := by
  rw [search_literal w ps dir hliteral, search_literal v ps dir hliteral,
    leadsTo_of_grows hg hdir hslash, below_eq_child (Path.anchored_of_isAbsolute hdir)]
  cases w.leadsTo dir name with
  | true => exact hnext
  | false => rfl

/-- Everything below a directory, where it was a directory before. -/
theorem filter_search_recursive_nil (hg : v.tree.Grows w.tree) (hdir : dir.isAbsolute = true)
    (hliteral : p.literal? = none) (hrecursive : p.isRecursive = true)
    (hd : v.isDirectory dir = true) (hdw : w.isDirectory dir = true) :
    (w.search [p] dir).filter v.exists_ = v.search [p] dir := by
  rw [search_recursive_nil w dir hliteral hrecursive hdw,
    search_recursive_nil v dir hliteral hrecursive hd, descents_of_grows hg hdir hd]
  have hmap : ((w.descents dir).filter fun r => v.exists_ (down dir r)).map (down dir) =
      ((w.descents dir).map (down dir)).filter v.exists_ := by
    rw [List.filter_map]
    rfl
  rw [hmap, List.filter_filter, List.filter_filter]
  refine List.filter_congr fun q hq => ?_
  obtain ⟨r, -, rfl⟩ := List.mem_map.1 hq
  cases hthere : v.exists_ (down dir r) with
  | true =>
    rw [isDirectory_eq_of_exists hg (isAbsolute_down hdir r) hthere]
    simp
  | false => simp

/-- Everything below a directory leads on with the components after the next one. -/
theorem filter_search_recursive_cons {p' : Pattern} (hg : v.tree.Grows w.tree)
    (hdir : dir.isAbsolute = true) (hliteral : p.literal? = none)
    (hrecursive : p.isRecursive = true) (hd : v.isDirectory dir = true)
    (hdw : w.isDirectory dir = true) (hnext : ∀ r, Narrows v w ps (down dir r)) :
    (w.search (p :: p' :: ps) dir).filter v.exists_ = v.search (p :: p' :: ps) dir := by
  rw [search_recursive_cons w ps dir hliteral hrecursive hdw,
    search_recursive_cons v ps dir hliteral hrecursive hd, descents_of_grows hg hdir hd,
    flatMap_filter_eq, List.filter_flatMap]
  refine List.flatMap_congr fun r _ => ?_
  split
  next => exact hnext r
  next => simp

/-- The names in a directory that a component stands for, where they were there before. -/
theorem filter_search_ordinary (hg : v.tree.Grows w.tree) (hdir : dir.isAbsolute = true)
    (hliteral : p.literal? = none) (hrecursive : p.isRecursive = false)
    (hd : v.isDirectory dir = true) (hdw : w.isDirectory dir = true)
    (hnext : ∀ name, Narrows v w ps (dir.child name)) :
    (w.search (p :: ps) dir).filter v.exists_ = v.search (p :: ps) dir := by
  rw [search_ordinary w ps dir hliteral hrecursive hdw,
    search_ordinary v ps dir hliteral hrecursive hd, List.filter_append,
    namesIn_of_grows hg hdir hd]
  congr 1
  · rw [List.filter_flatMap]
    refine List.flatMap_congr fun name hname => ?_
    exact (hnext name).search_eq (exists_child_of_special
      (Path.text_ne_empty_of_isAbsolute hdir) (eq_of_mem_specials hname) hd)
  · have hcomm : ((w.namesIn dir).filter fun name => v.exists_ (below dir name)).filter
        p.accepts = ((w.namesIn dir).filter p.accepts).filter fun name =>
          v.exists_ (below dir name) := by
      rw [List.filter_filter, List.filter_filter]
      exact List.filter_congr fun _ _ => Bool.and_comm _ _
    rw [hcomm, List.filter_flatMap, flatMap_filter_eq fun name => v.exists_ (below dir name)]
    refine List.flatMap_congr fun name _ => ?_
    rw [below_eq_child (Path.anchored_of_isAbsolute hdir)]
    exact hnext name

end

/-- **What a search finds in the smaller tree** is what it finds in the larger one and is there. -/
theorem search_of_grows (hg : v.tree.Grows w.tree) {ps : List Pattern} (hps : ∀ p ∈ ps, p.Plain)
    (hdir : dir.isAbsolute = true) : Narrows v w ps dir := by
  -- `**` takes the component after it along, so that the induction is on the number of components
  induction hn : ps.length using Nat.strongRecOn generalizing ps dir with
  | ind n ih =>
    subst hn
    rw [Narrows]
    split
    next hexists =>
      cases ps with
      | nil =>
        rw [search_nil, search_nil]
        exact List.filter_eq_self.2 fun q hq => by rw [List.mem_singleton.1 hq, hexists]
      | cons p ps =>
        have hrest : ∀ p ∈ ps, p.Plain := fun p hp => hps p (List.mem_cons_of_mem _ hp)
        have hnext (name : String) : Narrows v w ps (dir.child name) :=
          ih ps.length (by simp) hrest (Path.isAbsolute_child hdir name) rfl
        cases hliteral : p.literal? with
        | some name =>
          exact filter_search_literal hg hdir hliteral (hps p List.mem_cons_self name hliteral)
            (hnext name)
        | none =>
          cases hd : v.isDirectory dir with
          | false =>
            rw [search_nowhere v ps dir hliteral hd]
            exact filter_search_eq_nil hps hdir (.inr ⟨List.cons_ne_nil p ps, hd⟩)
          | true =>
            have hdw : w.isDirectory dir = true :=
              isDirectory_of_grows hg (by rw [start_eq_nil hdir, start_eq_nil hdir]) hd
            cases hrecursive : p.isRecursive with
            | false => exact filter_search_ordinary hg hdir hliteral hrecursive hd hdw hnext
            | true =>
              cases ps with
              | nil => exact filter_search_recursive_nil hg hdir hliteral hrecursive hd hdw
              | cons p' ps =>
                refine filter_search_recursive_cons hg hdir hliteral hrecursive hd hdw fun r => ?_
                exact ih ps.length (by simp only [List.length_cons]; omega)
                  (fun p hp => hrest p (List.mem_cons_of_mem _ hp)) (isAbsolute_down hdir r) rfl
    next hexists => exact filter_search_eq_nil hps hdir (.inl (by simpa using hexists))

theorem exists_root (v : View) : v.exists_ ⟨"/"⟩ = true := by
  refine exists_iff.2 ⟨[], .directory, resolve_eq_ok_iff.2 ⟨by decide, rfl, fun _ => ?_⟩, ?_⟩
  · exact FileTree.lookup_nil v.tree
  · exact FileTree.lookup_nil v.tree

/-- **The files that a pattern finds in the smaller tree** are those that it finds in the larger
one and that were files before. -/
theorem filesOf_of_grows (hg : v.tree.Grows w.tree) (hsame : w.directory = v.directory)
    {base : Path} (hbase : base.isAbsolute = true) (pattern : String) :
    v.filesOf base pattern = (w.filesOf base pattern).map fun files => files.filter v.isFile := by
  rw [filesOf, filesOf]
  cases hparse : PathPattern.parse (base.child pattern).text with
  | error e => rfl
  | ok p =>
    obtain ⟨hscope, hplain⟩ :=
      PathPattern.plain_of_parse (Path.isAbsolute_child hbase pattern) hparse
    have hroot : p.scope.isAbsolute = true := by
      rw [hscope]
      rfl
    have hsearch := (search_of_grows hg hplain hroot).search_eq
      (by rw [hscope]; exact exists_root v)
    have hstart (q : Path) : w.start q = v.start q := by rw [start, start, hsame]
    have hfile (q : Path) :
        (v.isFile q && ((!p.directoriesOnly || v.isDirectory q) && v.exists_ q)) =
          (v.isFile q && (w.isFile q && (!p.directoriesOnly || w.isDirectory q))) := by
      cases hv : v.isFile q with
      | false => rfl
      | true =>
        have hw := isFile_of_grows hg (hstart q) hv
        rw [hw, not_isDirectory_of_isFile hv, not_isDirectory_of_isFile hw, exists_of_isFile hv]
        simp
    simp only [Except.map, found, ← hsearch, List.filter_filter, hfile]

theorem mapM_map {α β ε : Type} {f g : α → Except ε β} {k : β → β}
    (h : ∀ a, g a = (f a).map k) (as : List α) : as.mapM g = (as.mapM f).map (List.map k) := by
  induction as with
  | nil => rfl
  | cons a as ih =>
    rw [List.mapM_cons, List.mapM_cons, h a, ih]
    cases f a with
    | error e => rfl
    | ok b => cases as.mapM f <;> rfl

/-- Everything that patterns find, one pattern after the other. -/
def gather (v : View) (base : Path) (patterns : List String) : Except Failure (List Path) :=
  (patterns.mapM (v.filesOf base)).map List.flatten

theorem gather_of_grows (hg : v.tree.Grows w.tree) (hsame : w.directory = v.directory)
    {base : Path} (hbase : base.isAbsolute = true) (patterns : List String) :
    v.gather base patterns = (w.gather base patterns).map fun files => files.filter v.isFile := by
  rw [gather, gather, mapM_map (filesOf_of_grows hg hsame hbase)]
  cases patterns.mapM (w.filesOf base) with
  | error e => rfl
  | ok found => simp [Except.map, List.filter_flatten]

end View

end FpgaFlow
