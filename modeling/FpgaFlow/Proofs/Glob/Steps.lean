import FpgaFlow.Proofs.Glob.Plain
import FpgaFlow.Proofs.Tree.Below
import FpgaFlow.Proofs.Tree.Listing

/-!
# The steps of a search

One step of a search leads from a directory by one or more names to the components that
are left (`View.Advances`).  A search finds the ends of the ways that such steps make up
(`View.mem_search_iff`).
-/

namespace FpgaFlow

open FileTree (IsName)

namespace View

open Glob

variable {v w : View} {dir q : Path} {name : String}

/-! ### Searching -/

theorem namesIn_eq {d : Location} (hd : v.resolve dir = .ok d)
    (hdirectory : v.tree.lookup d = some .directory) : v.namesIn dir = v.tree.names d := by
  have hexpect : expectDirectory v.tree d = .ok () := expectDirectory_eq_ok_iff.2 hdirectory
  rw [namesIn, list, hd]
  simp [bind, Except.bind, pure, Except.pure, hexpect]

theorem descents_eq {d : Location} (hd : v.resolve dir = .ok d) :
    v.descents dir = (v.tree.contents d).map Prod.fst := by
  rw [descents, hd]

theorem eq_of_mem_specials {p : Pattern} (h : name ∈ specials p) :
    name = "." ∨ name = ".." := by
  rw [specials] at h
  split at h
  next =>
    rcases List.mem_cons.1 (List.mem_of_mem_filter h) with rfl | h
    · exact .inr rfl
    · exact .inl (List.mem_singleton.1 h)
  next => cases h

theorem isName_of_mem_namesIn (h : name ∈ w.namesIn dir) : IsName name := by
  rw [namesIn] at h
  split at h
  next names hlist =>
    cases hd : w.resolve dir with
    | error e => simp [list, hd, bind, Except.bind] at hlist
    | ok d =>
      cases he : expectDirectory w.tree d with
      | error e => simp [list, hd, he, bind, Except.bind] at hlist
      | ok u =>
        have hnames : w.tree.names d = names := by
          simpa [list, hd, he, bind, Except.bind, pure, Except.pure] using hlist
        rw [← hnames, FileTree.mem_names] at h
        exact FileTree.isName_of_lookup (Option.isSome_iff_ne_none.1 h) (by simp)
  next => cases h

theorem of_mem_descents {r : Location} (h : r ∈ w.descents dir) :
    r ≠ [] ∧ ∀ s ∈ r, IsName s := by
  rw [descents] at h
  split at h
  next d hd =>
    obtain ⟨hne, hsome⟩ := FileTree.mem_map_fst_contents.1 h
    refine ⟨hne, fun s hs => ?_⟩
    exact FileTree.isName_of_lookup (Option.isSome_iff_ne_none.1 hsome)
      (List.mem_append_right d hs)
  next => cases h

section

variable (w : View) {p : Pattern} (ps : List Pattern) (dir : Path)

theorem search_nil : w.search [] dir = [dir] := rfl

/-- Whether a search goes on to a name. -/
def leadsTo (dir : Path) (name : String) : Bool :=
  if name = "." ∨ name = ".." then w.isDirectory dir else w.exists_ (below dir name)

theorem search_literal (h : p.literal? = some name) : w.search (p :: ps) dir =
    if w.leadsTo dir name then w.search ps (below dir name) else [] := by
  rw [search.eq_def]
  simp only [h]
  rfl

theorem search_nowhere (h : p.literal? = none) (hd : w.isDirectory dir = false) :
    w.search (p :: ps) dir = [] := by
  rw [search.eq_def]
  simp [h, hd]

theorem search_recursive_nil (h : p.literal? = none) (hr : p.isRecursive = true)
    (hd : w.isDirectory dir = true) :
    w.search [p] dir = ((w.descents dir).map (down dir)).filter w.isDirectory := by
  rw [search.eq_def]
  simp only [h, hr, hd, Bool.not_true, Bool.false_eq_true, if_false, if_true]
  rfl

theorem search_recursive_cons {p' : Pattern} (h : p.literal? = none) (hr : p.isRecursive = true)
    (hd : w.isDirectory dir = true) :
    w.search (p :: p' :: ps) dir = (w.descents dir).flatMap fun r =>
      if p'.accepts (r.getLast?.getD "") then w.search ps (down dir r) else [] := by
  rw [search.eq_def]
  simp only [h, hr, hd, Bool.not_true, Bool.false_eq_true, if_false, if_true]
  rfl

theorem search_ordinary (h : p.literal? = none) (hr : p.isRecursive = false)
    (hd : w.isDirectory dir = true) : w.search (p :: ps) dir =
      (specials p).flatMap (fun name => w.search ps (dir.child name)) ++
        ((w.namesIn dir).filter p.accepts).flatMap fun name => w.search ps (below dir name) := by
  rw [search.eq_def]
  simp only [h, hr, hd, Bool.not_true, Bool.false_eq_true, if_false]

end

/-! ### Steps -/

/-- One step of a search: from a directory the components of a pattern lead by a way to the
components that are left. -/
inductive Advances (v : View) (dir : Path) : List Pattern → Location → List Pattern → Prop where
  | literal {p : Pattern} {ps : List Pattern} {name : String} (h : p.literal? = some name)
      (hthere : v.leadsTo dir name = true) : Advances v dir (p :: ps) [name] ps
  /-- At its end `**` leads to directories only. -/
  | everywhere {p : Pattern} {r : Location} (h : p.literal? = none)
      (hr : p.isRecursive = true) (hd : v.isDirectory dir = true) (hway : r ∈ v.descents dir)
      (hend : v.isDirectory (down dir r) = true) : Advances v dir [p] r []
  /-- The component after `**` stands for the last name of the way. -/
  | recursive {p p' : Pattern} {ps : List Pattern} {r : Location} (h : p.literal? = none)
      (hr : p.isRecursive = true) (hd : v.isDirectory dir = true) (hway : r ∈ v.descents dir)
      (haccepts : p'.accepts (r.getLast?.getD "") = true) : Advances v dir (p :: p' :: ps) r ps
  | special {p : Pattern} {ps : List Pattern} {name : String} (h : p.literal? = none)
      (hr : p.isRecursive = false) (hd : v.isDirectory dir = true) (hname : name ∈ specials p) :
      Advances v dir (p :: ps) [name] ps
  | name {p : Pattern} {ps : List Pattern} {name : String} (h : p.literal? = none)
      (hr : p.isRecursive = false) (hd : v.isDirectory dir = true) (hname : name ∈ v.namesIn dir)
      (haccepts : p.accepts name = true) : Advances v dir (p :: ps) [name] ps

variable {p : Pattern} {ps rest : List Pattern} {r : Location}

theorem Advances.exists_append (h : v.Advances dir ps r rest) :
    ∃ front, front ≠ [] ∧ ps = front ++ rest := by
  cases h with
  | literal => exact ⟨[_], List.cons_ne_nil _ _, rfl⟩
  | everywhere => exact ⟨[_], List.cons_ne_nil _ _, rfl⟩
  | recursive => exact ⟨[_, _], List.cons_ne_nil _ _, rfl⟩
  | special => exact ⟨[_], List.cons_ne_nil _ _, rfl⟩
  | name => exact ⟨[_], List.cons_ne_nil _ _, rfl⟩

theorem Advances.length_lt (h : v.Advances dir ps r rest) : rest.length < ps.length := by
  obtain ⟨front, hne, rfl⟩ := h.exists_append
  have := List.length_pos_iff.2 hne
  rw [List.length_append]
  omega

theorem Advances.plain (h : v.Advances dir ps r rest) (hps : ∀ p ∈ ps, p.Plain) :
    ∀ p ∈ rest, p.Plain := by
  obtain ⟨front, -, rfl⟩ := h.exists_append
  exact fun p hp => hps p (List.mem_append_right front hp)

theorem Advances.way (h : v.Advances dir ps r rest) (hps : ∀ p ∈ ps, p.Plain) :
    r ≠ [] ∧ ∀ s ∈ r, '/' ∉ s.toList := by
  have hone {name : String} (hslash : '/' ∉ name.toList) :
      [name] ≠ [] ∧ ∀ s ∈ [name], '/' ∉ s.toList :=
    ⟨List.cons_ne_nil _ _, fun s hs => List.mem_singleton.1 hs ▸ hslash⟩
  cases h with
  | literal h => exact hone (hps _ List.mem_cons_self _ h)
  | everywhere _ _ _ hway => exact (of_mem_descents hway).imp_right slash_notMem_of_names
  | recursive _ _ _ hway => exact (of_mem_descents hway).imp_right slash_notMem_of_names
  | special _ _ _ hname =>
    refine hone ?_
    rcases eq_of_mem_specials hname with rfl | rfl <;> decide
  | name _ _ _ hname => exact hone (isName_of_mem_namesIn hname).2.2.2

/-! ### The steps of each kind of component -/

theorem advances_literal_iff (h : p.literal? = some name) :
    v.Advances dir (p :: ps) r rest ↔ v.leadsTo dir name = true ∧ r = [name] ∧ rest = ps := by
  constructor
  · intro hstep
    cases hstep with
    | literal h' hthere =>
      obtain rfl := Option.some.inj (h.symm.trans h')
      exact ⟨hthere, rfl, rfl⟩
    | everywhere h' => simp [h] at h'
    | recursive h' => simp [h] at h'
    | special h' => simp [h] at h'
    | name h' => simp [h] at h'
  · rintro ⟨hthere, rfl, rfl⟩
    exact .literal h hthere

theorem not_advances_nowhere (h : p.literal? = none) (hd : v.isDirectory dir = false) :
    ¬ v.Advances dir (p :: ps) r rest := by
  intro hstep
  cases hstep with
  | literal h' => simp [h] at h'
  | everywhere _ _ hd' => simp [hd] at hd'
  | recursive _ _ hd' => simp [hd] at hd'
  | special _ _ hd' => simp [hd] at hd'
  | name _ _ hd' => simp [hd] at hd'

theorem advances_recursive_nil_iff (h : p.literal? = none) (hr : p.isRecursive = true)
    (hd : v.isDirectory dir = true) : v.Advances dir [p] r rest ↔
      r ∈ v.descents dir ∧ v.isDirectory (down dir r) = true ∧ rest = [] := by
  constructor
  · intro hstep
    cases hstep with
    | literal h' => simp [h] at h'
    | everywhere _ _ _ hway hend => exact ⟨hway, hend, rfl⟩
    | special _ hr' => simp [hr] at hr'
    | name _ hr' => simp [hr] at hr'
  · rintro ⟨hway, hend, rfl⟩
    exact .everywhere h hr hd hway hend

theorem advances_recursive_cons_iff {p' : Pattern} (h : p.literal? = none)
    (hr : p.isRecursive = true) (hd : v.isDirectory dir = true) :
    v.Advances dir (p :: p' :: ps) r rest ↔
      r ∈ v.descents dir ∧ p'.accepts (r.getLast?.getD "") = true ∧ rest = ps := by
  constructor
  · intro hstep
    cases hstep with
    | literal h' => simp [h] at h'
    | recursive _ _ _ hway haccepts => exact ⟨hway, haccepts, rfl⟩
    | special _ hr' => simp [hr] at hr'
    | name _ hr' => simp [hr] at hr'
  · rintro ⟨hway, haccepts, rfl⟩
    exact .recursive h hr hd hway haccepts

theorem advances_ordinary_iff (h : p.literal? = none) (hr : p.isRecursive = false)
    (hd : v.isDirectory dir = true) : v.Advances dir (p :: ps) r rest ↔
      ∃ name, (name ∈ specials p ∨ name ∈ v.namesIn dir ∧ p.accepts name = true) ∧
        r = [name] ∧ rest = ps := by
  constructor
  · intro hstep
    cases hstep with
    | literal h' => simp [h] at h'
    | everywhere _ hr' => simp [hr] at hr'
    | recursive _ hr' => simp [hr] at hr'
    | special _ _ _ hname => exact ⟨_, .inl hname, rfl, rfl⟩
    | name _ _ _ hname haccepts => exact ⟨_, .inr ⟨hname, haccepts⟩, rfl, rfl⟩
  · rintro ⟨name, hname | ⟨hname, haccepts⟩, rfl, rfl⟩
    · exact .special h hr hd hname
    · exact .name h hr hd hname haccepts

/-- **What a search finds** is found after one step. -/
theorem mem_search_cons_iff (hdir : dir.Anchored) : q ∈ v.search (p :: ps) dir ↔
    ∃ r rest, v.Advances dir (p :: ps) r rest ∧ q ∈ v.search rest (down dir r) := by
  have hone (name : String) : down dir [name] = below dir name := rfl
  cases hliteral : p.literal? with
  | some name =>
    rw [search_literal v ps dir hliteral]
    simp only [advances_literal_iff hliteral]
    constructor
    · intro hq
      split at hq
      next hthere => exact ⟨[name], ps, ⟨hthere, rfl, rfl⟩, hq⟩
      next => cases hq
    · rintro ⟨_, _, ⟨hthere, rfl, rfl⟩, hq⟩
      rwa [if_pos hthere]
  | none =>
    cases hd : v.isDirectory dir with
    | false =>
      rw [search_nowhere v ps dir hliteral hd]
      simp [not_advances_nowhere hliteral hd]
    | true =>
      cases hrecursive : p.isRecursive with
      | true =>
        cases ps with
        | nil =>
          rw [search_recursive_nil v dir hliteral hrecursive hd, List.mem_filter, List.mem_map]
          simp only [advances_recursive_nil_iff hliteral hrecursive hd]
          constructor
          · rintro ⟨⟨r, hr, rfl⟩, hend⟩
            exact ⟨r, [], ⟨hr, hend, rfl⟩, List.mem_singleton_self _⟩
          · rintro ⟨r, _, ⟨hr, hend, rfl⟩, hq⟩
            rw [List.mem_singleton.1 hq]
            exact ⟨⟨r, hr, rfl⟩, hend⟩
        | cons p' ps =>
          rw [search_recursive_cons v ps dir hliteral hrecursive hd, List.mem_flatMap]
          simp only [advances_recursive_cons_iff hliteral hrecursive hd]
          constructor
          · rintro ⟨r, hr, hq⟩
            split at hq
            next haccepts => exact ⟨r, ps, ⟨hr, haccepts, rfl⟩, hq⟩
            next => cases hq
          · rintro ⟨r, _, ⟨hr, haccepts, rfl⟩, hq⟩
            refine ⟨r, hr, ?_⟩
            rwa [if_pos haccepts]
      | false =>
        rw [search_ordinary v ps dir hliteral hrecursive hd, List.mem_append, List.mem_flatMap,
          List.mem_flatMap]
        simp only [advances_ordinary_iff hliteral hrecursive hd, List.mem_filter]
        constructor
        · rintro (⟨name, hname, hq⟩ | ⟨name, hname, hq⟩)
          · rw [← below_eq_child hdir, ← hone] at hq
            exact ⟨[name], ps, ⟨name, .inl hname, rfl, rfl⟩, hq⟩
          · exact ⟨[name], ps, ⟨name, .inr hname, rfl, rfl⟩, hq⟩
        · rintro ⟨_, _, ⟨name, hname | hname, rfl, rfl⟩, hq⟩
          · rw [hone, below_eq_child hdir] at hq
            exact .inl ⟨name, hname, hq⟩
          · exact .inr ⟨name, hname, hq⟩

/-! ### Ways -/

/-- The components of a pattern lead from a directory by a way to its end. -/
inductive Reaches (v : View) : List Pattern → Path → Location → Prop where
  | done {dir : Path} : Reaches v [] dir []
  | step {ps rest : List Pattern} {dir : Path} {r s : Location} (h : v.Advances dir ps r rest)
      (hrest : Reaches v rest (down dir r) s) : Reaches v ps dir (r ++ s)

theorem Reaches.slash_notMem (h : v.Reaches ps dir r) (hps : ∀ p ∈ ps, p.Plain) :
    ∀ s ∈ r, '/' ∉ s.toList := by
  induction h with
  | done => simp
  | step h _ ih =>
    intro s hs
    rcases List.mem_append.1 hs with hs | hs
    · exact (h.way hps).2 s hs
    · exact ih (h.plain hps) s hs

theorem Reaches.eq_nil_iff (h : v.Reaches ps dir r) (hps : ∀ p ∈ ps, p.Plain) :
    r = [] ↔ ps = [] := by
  cases h with
  | done => simp
  | step h =>
    have hlt := h.length_lt
    refine iff_of_false (fun hr => (h.way hps).1 (List.append_eq_nil_iff.1 hr).1) ?_
    rintro rfl
    simp at hlt

theorem down_append (r s : Location) : down dir (r ++ s) = down (down dir r) s :=
  List.foldl_append

/-- **A search finds the ends of the ways** that its steps make up. -/
theorem mem_search_iff (hps : ∀ p ∈ ps, p.Plain) (hdir : dir.Anchored) :
    q ∈ v.search ps dir ↔ ∃ r, v.Reaches ps dir r ∧ q = down dir r := by
  constructor
  · intro hq
    induction hn : ps.length using Nat.strongRecOn generalizing ps dir with
    | ind n ih =>
      subst hn
      cases ps with
      | nil => exact ⟨[], .done, List.mem_singleton.1 hq⟩
      | cons p ps =>
        obtain ⟨r, rest, hstep, hq⟩ := (mem_search_cons_iff hdir).1 hq
        obtain ⟨s, hs, rfl⟩ := ih rest.length hstep.length_lt (hstep.plain hps)
          (anchored_down hdir (hstep.way hps).2) hq rfl
        exact ⟨r ++ s, .step hstep hs, (down_append r s).symm⟩
  · rintro ⟨r, hr, rfl⟩
    induction hr with
    | done => exact List.mem_singleton_self _
    | @step ps rest dir r s hstep _ ih =>
      cases ps with
      | nil => exact absurd hstep.length_lt (by simp)
      | cons p ps =>
        rw [down_append]
        exact (mem_search_cons_iff hdir).2 ⟨r, rest, hstep,
          ih (hstep.plain hps) (anchored_down hdir (hstep.way hps).2)⟩

end View

end FpgaFlow
