import FpgaFlow.Proofs.Glob.Literal

/-!
# Where a search below a directory begins

A pattern below a directory begins with the names of the directory's path.  The way by
these names leads to the directory, in another spelling (`View.respelled_down`), and a
search that begins with them goes on from there (`View.search_origin`).
-/

namespace FpgaFlow

namespace Path

variable {p : Path} {first name : String} {rest names : List String}

theorem isAbsolute_of_pieces (hp : p.text ≠ "") (h : p.pieces = "" :: rest) :
    p.isAbsolute = true := by
  rw [isAbsolute]
  cases htext : p.text.toList with
  | nil => exact absurd htext (toList_ne_nil hp)
  | cons c cs =>
    by_cases hc : c = '/'
    · simp [hc]
    · rw [pieces, htext, Text.splitOn, if_neg hc] at h
      split at h
      all_goals
        rw [List.map_cons] at h
        have hempty := congrArg String.toList (List.cons.inj h).1
        simp at hempty

/-- One name is a path of its own. -/
theorem anchored_of_name (hempty : name ≠ "") (hdot : name ≠ ".") (hslash : '/' ∉ name.toList) :
    (⟨name⟩ : Path).Anchored := by
  refine ⟨hempty, ?_⟩
  rw [components_of_pieces hempty (pieces_of_slash_notMem hslash), firstComponent?,
    if_neg hempty, if_neg hdot, componentOf?.eq_def]
  split <;> simp

theorem Spells.slash_notMem (h : p.Spells names) : ∀ s ∈ names, '/' ∉ s.toList := by
  intro s hs
  obtain ⟨blank, -, h⟩ := h
  refine slash_notMem_of_mem_pieces (p := p) ?_
  rw [h]
  exact List.mem_append_right _ (List.mem_append_left blank hs)

/-- Two spellings of a path, seen from the same directory. -/
structure Respelled (p q : Path) : Prop where
  isAbsolute : p.isAbsolute = q.isAbsolute
  steps : p.steps = q.steps
  components : p.components = q.components

end Path

namespace View

open Glob

variable {v w : View} {base dir : Path} {name : String} {names r : List String}

/-- A way that does not begin at the root begins with a name. -/
theorem exists_first_of_relative (hbase : base.Anchored) (h : base.Spells names)
    (hrelative : base.isAbsolute = false) :
    ∃ first rest, names = first :: rest ∧ (⟨first⟩ : Path).Anchored := by
  have hslash := h.slash_notMem
  obtain ⟨blank, hblank, hpieces⟩ := h
  rw [hrelative, if_neg (by simp), List.nil_append] at hpieces
  have hroot {rest : List String} (h : base.pieces = "" :: rest) : False := by
    rw [Path.isAbsolute_of_pieces hbase.text_ne h] at hrelative
    cases hrelative
  cases names with
  | nil =>
    obtain ⟨first, rest, hfirst⟩ := base.exists_pieces_eq
    rw [List.nil_append, hfirst] at hpieces
    have hempty : first = "" := hblank first (hpieces ▸ List.mem_cons_self)
    exact absurd (hempty ▸ hfirst) hroot
  | cons first rest =>
    rw [List.cons_append] at hpieces
    refine ⟨first, rest, rfl, Path.anchored_of_name ?_ ?_ (hslash first List.mem_cons_self)⟩
    · rintro rfl
      exact hroot hpieces
    · rintro rfl
      refine hbase.head_ne ?_
      rw [Path.components_of_pieces hbase.text_ne hpieces]
      rfl

/-- The way that a path describes leads to the path, in another spelling. -/
theorem respelled_down (hbase : base.Anchored) (h : base.Spells names) :
    (down base.origin names).Anchored ∧ (down base.origin names).Respelled base := by
  have hslash := h.slash_notMem
  have hrelative := exists_first_of_relative hbase h
  obtain ⟨blank, hblank, hpieces⟩ := h
  have hbaseSteps : base.steps = base.pieces.filter (· ≠ "") := rfl
  have hsteps : blank.filter (· ≠ "") = [] := by simpa using hblank
  have hcomponents : blank.filterMap Path.componentOf? = [] := by
    rw [List.filterMap_eq_nil_iff]
    exact fun s hs => by rw [hblank s hs]; rfl
  cases habs : base.isAbsolute with
  | true =>
    have hroot : (⟨"/"⟩ : Path).Anchored := Path.anchored_of_isAbsolute rfl
    rw [if_pos habs, List.singleton_append] at hpieces
    rw [Path.origin, if_pos habs]
    refine ⟨anchored_down hroot hslash, ?_, ?_, ?_⟩
    · rw [habs, isAbsolute_down rfl]
    · rw [steps_down hroot hslash, hbaseSteps, hpieces, List.filter_cons_of_neg (by simp),
        List.filter_append, hsteps, List.append_nil]
      rfl
    · rw [components_down hroot hslash, Path.components_of_pieces hbase.text_ne hpieces,
        List.filterMap_append, hcomponents, List.append_nil]
      rfl
  | false =>
    obtain ⟨first, rest, rfl, hname⟩ := hrelative habs
    obtain ⟨hfirst, hrest⟩ := List.forall_mem_cons.1 hslash
    have hempty : first ≠ "" := hname.text_ne
    have hdown : down ⟨"."⟩ (first :: rest) = down ⟨first⟩ rest := rfl
    rw [habs, if_neg (by simp), List.nil_append, List.cons_append] at hpieces
    rw [Path.origin, habs, if_neg (by simp), hdown]
    refine ⟨anchored_down hname hrest, ?_, ?_, ?_⟩
    · rw [habs, isAbsolute_down_eq hname hrest, Path.isAbsolute_of_slash_notMem hfirst]
    · rw [steps_down hname hrest, Path.steps_of_slash_notMem hfirst, if_neg hempty, hbaseSteps,
        hpieces, List.filter_cons_of_pos (by simp [hempty]), List.filter_append, hsteps,
        List.append_nil]
      rfl
    · rw [components_down hname hrest, Path.components_of_pieces hbase.text_ne hpieces,
        Path.components_of_pieces hempty (Path.pieces_of_slash_notMem hfirst),
        List.filterMap_append, hcomponents]
      simp

/-! ### Names in front of a pattern -/

/-- A search goes down by names that stand for themselves. -/
theorem search_literals (hdir : dir.Anchored) (hnames : ∀ s ∈ names, '/' ∉ s.toList)
    (hthere : v.exists_ (down dir names) = true) (ps : List Pattern) :
    v.search (names.map Pattern.literal ++ ps) dir = v.search ps (down dir names) := by
  induction names generalizing dir with
  | nil => rfl
  | cons name names ih =>
    obtain ⟨hname, hrest⟩ := List.forall_mem_cons.1 hnames
    rw [List.map_cons, List.cons_append, search_literal v _ dir (Pattern.literal?_literal name),
      if_pos (leadsTo_of_exists_down hdir hnames hthere), below_eq_child hdir, down_cons hdir]
    rw [down_cons hdir] at hthere
    exact ih (hdir.child hname) hrest hthere

theorem leadsTo_dot (hslash : '/' ∉ name.toList) (hempty : name ≠ "")
    (hthere : v.exists_ ⟨name⟩ = true) : v.leadsTo ⟨"."⟩ name = true := by
  rw [leadsTo]
  split
  next =>
    obtain ⟨l, e, hl, -⟩ := exists_iff.1 hthere
    obtain ⟨-, hwalk, -⟩ := resolve_eq_ok_iff.1 hl
    rw [Path.steps_of_slash_notMem hslash, if_neg hempty, start,
      Path.isAbsolute_of_slash_notMem hslash] at hwalk
    have hdirectory : v.tree.lookup v.directory = some .directory := (walk_cons_eq_ok_iff.1 hwalk).1
    refine isDirectory_iff.2 ⟨v.directory, resolve_eq_ok_iff.2 ⟨by decide, ?_, ?_⟩, hdirectory⟩
    · exact walk_cons_eq_ok_iff.2 ⟨hdirectory, rfl⟩
    · exact fun _ => hdirectory
  next => exact hthere

/-- A search that begins with the names of a path begins at the path. -/
theorem search_origin (hbase : base.Anchored) (h : base.Spells names)
    (hthere : v.exists_ (down base.origin names) = true) (ps : List Pattern) :
    v.search (names.map Pattern.literal ++ ps) base.origin =
      v.search ps (down base.origin names) := by
  cases habs : base.isAbsolute with
  | true =>
    have horigin : base.origin = ⟨"/"⟩ := by rw [Path.origin, if_pos habs]
    rw [horigin] at hthere ⊢
    exact search_literals (Path.anchored_of_isAbsolute rfl) h.slash_notMem hthere ps
  | false =>
    obtain ⟨first, rest, rfl, hname⟩ := exists_first_of_relative hbase h habs
    obtain ⟨hfirst, hrest⟩ := List.forall_mem_cons.1 h.slash_notMem
    have hdown : down ⟨"."⟩ (first :: rest) = down ⟨first⟩ rest := rfl
    rw [Path.origin, habs, if_neg (by simp), hdown] at hthere ⊢
    have hleads := leadsTo_dot hfirst hname.text_ne (exists_of_exists_down hname hrest hthere)
    rw [List.map_cons, List.cons_append, search_literal v _ _ (Pattern.literal?_literal first),
      if_pos hleads]
    exact search_literals hname hrest hthere ps

end View

end FpgaFlow
