import FpgaFlow.Proofs.Glob.Steps

/-!
# The names that patterns stand for

Whether a pattern stands for a way of names is a matter of the names alone
(`Glob.StandsFor`), and no tree has to be searched for it.  A search finds those files
that are at the end of such a way (`View.mem_search_iff_standsFor`).
-/

namespace FpgaFlow

open FileTree (IsName)

namespace Glob

namespace Pattern

theorem literalChars?_eq_some_iff {tokens : List Token} {cs : List Char} :
    literalChars? tokens = some cs ↔ tokens = cs.map .char := by
  induction tokens generalizing cs with
  | nil =>
    rw [literalChars?, Option.some.injEq, eq_comm, eq_comm (b := cs.map _), List.map_eq_nil_iff]
  | cons t tokens ih =>
    cases t with
    | char c =>
      rw [literalChars?, Option.map_eq_some_iff]
      constructor
      · rintro ⟨rest, hrest, rfl⟩
        rw [ih.1 hrest, List.map_cons]
      · intro h
        obtain ⟨a, rest, rfl, ha, hrest⟩ := List.map_eq_cons_iff.1 h.symm
        obtain rfl := Token.char.inj ha
        exact ⟨rest, ih.2 hrest.symm, rfl⟩
    | anyChar => cases cs <;> simp [literalChars?]
    | anySequence => cases cs <;> simp [literalChars?]
    | anyRecursive => cases cs <;> simp [literalChars?]
    | within sets => cases cs <;> simp [literalChars?]
    | except sets => cases cs <;> simp [literalChars?]

theorem literal?_of_isRecursive {p : Pattern} (h : p.isRecursive = true) : p.literal? = none := by
  rw [literal?, Option.map_eq_none_iff, Option.eq_none_iff_forall_ne_some]
  intro cs hcs
  rw [isRecursive, literalChars?_eq_some_iff.1 hcs] at h
  simp at h

end Pattern

/-- The components of a pattern stand for a way of names. -/
inductive StandsFor : List Pattern → List String → Prop where
  | done : StandsFor [] []
  | literal {p : Pattern} {ps : List Pattern} {name : String} {r : List String}
      (h : p.literal? = some name) (hrest : StandsFor ps r) : StandsFor (p :: ps) (name :: r)
  | name {p : Pattern} {ps : List Pattern} {name : String} {r : List String}
      (h : p.literal? = none) (hr : p.isRecursive = false) (hname : IsName name)
      (haccepts : p.accepts name = true) (hrest : StandsFor ps r) : StandsFor (p :: ps) (name :: r)
  /-- Wild cards stand for `.` and `..` only after a point. -/
  | special {p : Pattern} {ps : List Pattern} {name : String} {r : List String}
      (h : p.literal? = none) (hr : p.isRecursive = false) (hname : name = "." ∨ name = "..")
      (hdot : p.startsWithDot = true) (haccepts : p.accepts name = true)
      (hrest : StandsFor ps r) : StandsFor (p :: ps) (name :: r)
  /-- `**` stands for any names. At the end of a pattern it would stand for directories only. -/
  | recursive {p p' : Pattern} {ps : List Pattern} {names r : List String} {name : String}
      (hr : p.isRecursive = true) (hnames : ∀ s ∈ names, IsName s) (hname : IsName name)
      (haccepts : p'.accepts name = true) (hrest : StandsFor ps r) :
      StandsFor (p :: p' :: ps) (names ++ name :: r)

/-- A pattern stands for the way to a file. -/
def Matches (pattern : String) (r : List String) : Prop :=
  ∃ p, PathPattern.parse pattern = .ok p ∧ p.directoriesOnly = false ∧ StandsFor p.components r

theorem StandsFor.slash_notMem {ps : List Pattern} {r : List String} (h : StandsFor ps r)
    (hps : ∀ p ∈ ps, p.Plain) : ∀ s ∈ r, '/' ∉ s.toList := by
  have hcons {p : Pattern} {ps : List Pattern} (hps : ∀ q ∈ p :: ps, q.Plain) :
      p.Plain ∧ ∀ q ∈ ps, q.Plain :=
    ⟨hps p List.mem_cons_self, fun q hq => hps q (List.mem_cons_of_mem p hq)⟩
  induction h with
  | done => simp
  | literal h _ ih => exact List.forall_mem_cons.2 ⟨(hcons hps).1 _ h, ih (hcons hps).2⟩
  | name _ _ hname _ _ ih => exact List.forall_mem_cons.2 ⟨hname.2.2.2, ih (hcons hps).2⟩
  | special _ _ hname _ _ _ ih =>
    refine List.forall_mem_cons.2 ⟨?_, ih (hcons hps).2⟩
    rcases hname with rfl | rfl <;> decide
  | recursive _ hnames hname _ _ ih =>
    refine List.forall_mem_append.2 ⟨fun s hs => (hnames s hs).2.2.2, ?_⟩
    exact List.forall_mem_cons.2 ⟨hname.2.2.2, ih (hcons (hcons hps).2).2⟩

theorem eq_of_literal? {p : Pattern} {name : String} (h : p.literal? = some name) :
    p = ⟨name.toList.map .char⟩ := by
  obtain ⟨cs, hcs, rfl⟩ := Option.map_eq_some_iff.1 h
  rw [String.toList_ofList, ← Pattern.literalChars?_eq_some_iff.1 hcs]

/-- A way goes up only where a component that begins with a point stands for `..`. -/
theorem StandsFor.exists_accepts_up {ps : List Pattern} {r : List String} (h : StandsFor ps r)
    (hup : ".." ∈ r) : ∃ p ∈ ps, p.startsWithDot = true ∧ p.accepts ".." = true := by
  have hlater {p : Pattern} {ps : List Pattern}
      (h : ∃ q ∈ ps, q.startsWithDot = true ∧ q.accepts ".." = true) :
      ∃ q ∈ p :: ps, q.startsWithDot = true ∧ q.accepts ".." = true := by
    obtain ⟨q, hq, h⟩ := h
    exact ⟨q, List.mem_cons_of_mem p hq, h⟩
  induction h with
  | done => cases hup
  | literal h _ ih =>
    rcases List.mem_cons.1 hup with rfl | hup
    · refine ⟨_, List.mem_cons_self, ?_⟩
      rw [eq_of_literal? h]
      decide
    · exact hlater (ih hup)
  | name _ _ hname _ _ ih =>
    exact hlater (ih ((List.mem_cons.1 hup).resolve_left (Ne.symm hname.2.2.1)))
  | special _ _ _ hdot haccepts _ ih =>
    rcases List.mem_cons.1 hup with rfl | hup
    · exact ⟨_, List.mem_cons_self, hdot, haccepts⟩
    · exact hlater (ih hup)
  | recursive _ hnames hname _ _ ih =>
    rcases List.mem_append.1 hup with hup | hup
    · exact absurd rfl (hnames _ hup).2.2.1
    · exact hlater (hlater (ih ((List.mem_cons.1 hup).resolve_left (Ne.symm hname.2.2.1))))

end Glob

namespace View

open Glob

variable {v : View} {dir q : Path} {name : String} {ps : List Pattern} {r : Location}

/-! ### What is there is found -/

theorem mem_specials_iff {p : Pattern} : name ∈ specials p ↔
    (name = "." ∨ name = "..") ∧ p.startsWithDot = true ∧ p.accepts name = true := by
  rw [specials]
  split
  next h =>
    rw [List.mem_filter, List.mem_cons, List.mem_singleton]
    simp [h, or_comm]
  next h => simp [h]

theorem exists_of_exists_down (hdir : dir.Anchored) (hr : ∀ s ∈ r, '/' ∉ s.toList)
    (h : v.exists_ (down dir r) = true) : v.exists_ dir = true := by
  by_cases hne : r = []
  · rw [hne] at h
    exact h
  · exact exists_of_isDirectory (isDirectory_of_exists_down hdir hr hne h)

/-- A search for a name goes on to what is there. -/
theorem leadsTo_of_exists_down (hdir : dir.Anchored) (hr : ∀ s ∈ name :: r, '/' ∉ s.toList)
    (h : v.exists_ (down dir (name :: r)) = true) : v.leadsTo dir name = true := by
  obtain ⟨hname, hrest⟩ := List.forall_mem_cons.1 hr
  rw [leadsTo, below_eq_child hdir]
  split
  next => exact isDirectory_of_exists_down hdir hr (List.cons_ne_nil name r) h
  next =>
    rw [down_cons hdir] at h
    exact exists_of_exists_down (hdir.child hname) hrest h

theorem mem_descents_of_exists (hdir : dir.Anchored) (hne : r ≠ []) (hr : ∀ s ∈ r, IsName s)
    (h : v.exists_ (down dir r) = true) : r ∈ v.descents dir := by
  obtain ⟨d, hd, hdirectory⟩ :=
    isDirectory_iff.1 (isDirectory_of_exists_down hdir (slash_notMem_of_names hr) hne h)
  rw [descents_eq hd]
  exact FileTree.mem_map_fst_contents.2 ⟨hne, (exists_down hdir hr hd hdirectory).symm.trans h⟩

theorem mem_namesIn_of_exists (hdir : dir.Anchored) (hname : IsName name)
    (h : v.exists_ (down dir [name]) = true) : name ∈ v.namesIn dir := by
  have hr : ∀ s ∈ [name], IsName s := fun s hs => List.mem_singleton.1 hs ▸ hname
  obtain ⟨d, hd, hdirectory⟩ := isDirectory_iff.1
    (isDirectory_of_exists_down hdir (slash_notMem_of_names hr) (List.cons_ne_nil _ _) h)
  rw [namesIn_eq hd hdirectory]
  exact FileTree.mem_names.2 ((exists_down hdir hr hd hdirectory).symm.trans h)

/-! ### Ways and the names on them -/

/-- The way to a file is one that the components of the pattern stand for. -/
theorem Reaches.standsFor (h : v.Reaches ps dir r) (hfile : v.isFile (down dir r) = true) :
    StandsFor ps r := by
  induction h with
  | done => exact .done
  | step h hrest ih =>
    rw [down_append] at hfile
    have hrest' := ih hfile
    cases h with
    | literal h => exact .literal h hrest'
    | everywhere _ _ _ _ hend =>
      cases hrest with
      | done =>
        rw [← down_append, List.append_nil] at hfile
        rw [not_isDirectory_of_isFile hfile] at hend
        cases hend
      | step h => exact absurd h.length_lt (by simp)
    | recursive _ hr _ hway haccepts =>
      obtain ⟨hne, hnames⟩ := of_mem_descents hway
      obtain ⟨names, name, rfl⟩ := List.eq_nil_or_concat' _ |>.resolve_left hne
      rw [List.getLast?_concat, Option.getD_some] at haccepts
      obtain ⟨hfront, hname⟩ := List.forall_mem_append.1 hnames
      rw [List.append_assoc]
      exact .recursive hr hfront (hname name List.mem_cons_self) haccepts hrest'
    | special h hr _ hname =>
      obtain ⟨hname, hdot, haccepts⟩ := mem_specials_iff.1 hname
      exact .special h hr hname hdot haccepts hrest'
    | name h hr _ hname haccepts =>
      exact .name h hr (isName_of_mem_namesIn hname) haccepts hrest'

theorem Reaches.cons {rest : List Pattern} (hdir : dir.Anchored)
    (h : v.Advances dir ps [name] rest) (hrest : v.Reaches rest (dir.child name) r) :
    v.Reaches ps dir (name :: r) :=
  .step (r := [name]) h (by rwa [down_cons hdir])

/-- A way that the components stand for is one that a search takes, if something is at its end. -/
theorem reaches_of_standsFor (h : StandsFor ps r) (hps : ∀ p ∈ ps, p.Plain) (hdir : dir.Anchored)
    (hthere : v.exists_ (down dir r) = true) : v.Reaches ps dir r := by
  have hslash := h.slash_notMem hps
  induction h generalizing dir with
  | done => exact .done
  | literal h _ ih =>
    obtain ⟨hname, hr⟩ := List.forall_mem_cons.1 hslash
    have hnext := hthere
    rw [down_cons hdir] at hnext
    exact .cons hdir (.literal h (leadsTo_of_exists_down hdir hslash hthere))
      (ih (List.forall_mem_cons.1 hps).2 (hdir.child hname) hnext hr)
  | name h hrecursive hname haccepts _ ih =>
    obtain ⟨hslashName, hr⟩ := List.forall_mem_cons.1 hslash
    have hd := isDirectory_of_exists_down hdir hslash (List.cons_ne_nil _ _) hthere
    rw [down_cons hdir] at hthere
    have hchild := exists_of_exists_down (hdir.child hslashName) hr hthere
    rw [← below_eq_child hdir] at hchild
    exact .cons hdir (.name h hrecursive hd (mem_namesIn_of_exists hdir hname hchild) haccepts)
      (ih (List.forall_mem_cons.1 hps).2 (hdir.child hslashName) hthere hr)
  | special h hrecursive hname hdot haccepts _ ih =>
    obtain ⟨hslashName, hr⟩ := List.forall_mem_cons.1 hslash
    have hd := isDirectory_of_exists_down hdir hslash (List.cons_ne_nil _ _) hthere
    rw [down_cons hdir] at hthere
    exact .cons hdir (.special h hrecursive hd (mem_specials_iff.2 ⟨hname, hdot, haccepts⟩))
      (ih (List.forall_mem_cons.1 hps).2 (hdir.child hslashName) hthere hr)
  | @recursive p p' ps names r name hrecursive hnames hname haccepts _ ih =>
    have hway : ∀ s ∈ names ++ [name], IsName s :=
      List.forall_mem_append.2 ⟨hnames, fun s hs => List.mem_singleton.1 hs ▸ hname⟩
    have hend := anchored_down hdir (slash_notMem_of_names hway)
    have hr : ∀ s ∈ r, '/' ∉ s.toList := fun s hs => hslash s (by simp [hs])
    rw [List.append_cons, down_append] at hthere
    have hexists := exists_of_exists_down hend hr hthere
    have hd := isDirectory_of_exists_down hdir (slash_notMem_of_names hway) (by simp) hexists
    rw [List.append_cons]
    refine .step (.recursive (Pattern.literal?_of_isRecursive hrecursive) hrecursive hd
      (mem_descents_of_exists hdir (by simp) hway hexists) ?_) ?_
    · rwa [List.getLast?_concat, Option.getD_some]
    · exact ih (fun q hq => hps q (by simp [hq])) hend hthere hr

/-- **A search finds the files** at the ends of the ways that a pattern stands for. -/
theorem mem_search_iff_standsFor (hps : ∀ p ∈ ps, p.Plain) (hdir : dir.Anchored)
    (hfile : v.isFile q = true) :
    q ∈ v.search ps dir ↔ ∃ r, StandsFor ps r ∧ q = down dir r := by
  rw [mem_search_iff hps hdir]
  constructor
  · rintro ⟨r, hr, rfl⟩
    exact ⟨r, hr.standsFor hfile, rfl⟩
  · rintro ⟨r, hr, rfl⟩
    exact ⟨r, reaches_of_standsFor hr hps hdir (exists_of_isFile hfile), rfl⟩

end View

end FpgaFlow
