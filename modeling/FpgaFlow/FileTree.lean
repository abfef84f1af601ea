/-!
# File trees

A file tree has directories and files at locations; a location is the list of the names on the way
from the root. The entries are kept in ascending order of their locations, each one below a
directory of the tree, so that a tree is determined by what is found at each location
(`FileTree.ext_lookup`). In this order a directory comes before everything in it, and what is in it
comes by ascending names. A name is not empty, has no slash and is none of the special names `.` and
`..`.

Putting an entry at a location changes that location and no other (`lookup_put`); it only happens
where the location consists of names, is below a directory and is no directory itself (`Accepts`).
Removing a location removes what is at it and below it, and nothing else (`lookup_remove`).
-/

namespace FpgaFlow

/-- The names on the way from the root. -/
abbrev Location := List String

/-- What a file holds: a text, or bytes that are not a text. -/
inductive Content where
  | text (s : String)
  | bytes (bs : List UInt8)
  deriving DecidableEq, Repr

/-- What is at a location. -/
inductive Entry where
  | directory
  | file (content : Content) (executable : Bool)
  deriving DecidableEq, Repr

namespace FileTree

/-- Puts an entry in the place that its location has in the order. -/
def insertEntry (l : Location) (e : Entry) : List (Location × Entry) → List (Location × Entry)
  | [] => [(l, e)]
  | (m, f) :: rest => match compare l m with
    | .lt => (l, e) :: (m, f) :: rest
    | .eq => (l, e) :: rest
    | .gt => (m, f) :: insertEntry l e rest

/-- Whether a text can be the name of an entry of a directory. -/
def IsName (s : String) : Prop :=
  s ≠ "" ∧ s ≠ "." ∧ s ≠ ".." ∧ '/' ∉ s.toList

instance (s : String) : Decidable (IsName s) :=
  inferInstanceAs (Decidable (_ ∧ _ ∧ _ ∧ _))

/-- Each location is a way of names. -/
def Named (entries : List (Location × Entry)) : Prop :=
  ∀ a ∈ entries, ∀ s ∈ a.1, IsName s

/-- Each location is below the next one. -/
def Ascending (entries : List (Location × Entry)) : Prop :=
  entries.Pairwise fun a b => compare a.1 b.1 = .lt

/-- Each location is below a directory. -/
def Rooted (entries : List (Location × Entry)) : Prop :=
  ∀ a ∈ entries, a.1 ≠ [] ∧ (a.1.dropLast = [] ∨ (a.1.dropLast, Entry.directory) ∈ entries)

theorem mem_insertEntry {l : Location} {e : Entry} {entries : List (Location × Entry)}
    (h : Ascending entries) {a : Location × Entry} :
    a ∈ insertEntry l e entries ↔ a = (l, e) ∨ (a ∈ entries ∧ a.1 ≠ l) := by
  induction entries with
  | nil => simp [insertEntry]
  | cons b rest ih =>
    obtain ⟨m, f⟩ := b
    have hrest : Ascending rest := List.Pairwise.of_cons h
    have hbelow : ∀ x ∈ rest, compare m x.1 = .lt := fun x hx => List.rel_of_pairwise_cons h hx
    rw [insertEntry]
    split
    next hlt =>
      have hne : ∀ x ∈ (m, f) :: rest, x.1 ≠ l := by
        intro x hx
        rcases List.mem_cons.1 hx with rfl | hx
        · rintro rfl
          simp at hlt
        · rintro rfl
          have := hbelow x hx
          have := Std.OrientedCmp.gt_iff_lt.2 this
          simp [this] at hlt
      constructor
      · intro ha
        rcases List.mem_cons.1 ha with rfl | ha
        · exact .inl rfl
        · exact .inr ⟨ha, hne a ha⟩
      · rintro (rfl | ⟨ha, -⟩)
        · exact List.mem_cons_self
        · exact List.mem_cons_of_mem _ ha
    next heq =>
      have hlm : l = m := Std.LawfulEqCmp.eq_of_compare heq
      subst hlm
      constructor
      · intro ha
        rcases List.mem_cons.1 ha with rfl | hr
        · exact .inl rfl
        · refine .inr ⟨List.mem_cons_of_mem _ hr, ?_⟩
          rintro rfl
          have := hbelow a hr
          simp at this
      · rintro (rfl | ⟨ha, hal⟩)
        · exact List.mem_cons_self
        · rcases List.mem_cons.1 ha with rfl | ha
          · exact absurd rfl hal
          · exact List.mem_cons_of_mem _ ha
    next hgt =>
      have hml : m ≠ l := by
        rintro rfl
        simp at hgt
      rw [List.mem_cons, ih hrest, List.mem_cons]
      constructor
      · rintro (rfl | rfl | ⟨ha, hal⟩)
        · exact .inr ⟨.inl rfl, hml⟩
        · exact .inl rfl
        · exact .inr ⟨.inr ha, hal⟩
      · rintro (rfl | ⟨rfl | ha, hal⟩)
        · exact .inr (.inl rfl)
        · exact .inl rfl
        · exact .inr (.inr ⟨ha, hal⟩)

theorem ascending_insertEntry {l : Location} {e : Entry} {entries : List (Location × Entry)}
    (h : Ascending entries) : Ascending (insertEntry l e entries) := by
  induction entries with
  | nil => simp [insertEntry, Ascending]
  | cons b rest ih =>
    obtain ⟨m, f⟩ := b
    have hrest : Ascending rest := List.Pairwise.of_cons h
    have hbelow : ∀ x ∈ rest, compare m x.1 = .lt := fun x hx => List.rel_of_pairwise_cons h hx
    rw [insertEntry]
    split
    next hlt =>
      refine List.Pairwise.cons (fun x hx => ?_) h
      rcases List.mem_cons.1 hx with rfl | hx
      · exact hlt
      · exact Std.TransCmp.lt_trans hlt (hbelow x hx)
    next heq =>
      have hlm : l = m := Std.LawfulEqCmp.eq_of_compare heq
      subst hlm
      exact List.Pairwise.cons hbelow hrest
    next hgt =>
      refine List.Pairwise.cons (fun x hx => ?_) (ih hrest)
      rcases (mem_insertEntry hrest).1 hx with rfl | ⟨hx, -⟩
      · exact Std.OrientedCmp.gt_iff_lt.1 hgt
      · exact hbelow x hx

/-- The rest of a location below another one. -/
def below? : Location → Location → Option Location
  | [], l => some l
  | _ :: _, [] => none
  | a :: as, b :: bs => if a = b then below? as bs else none

theorem below?_eq_some_iff {base l rest : Location} :
    below? base l = some rest ↔ l = base ++ rest := by
  induction base generalizing l with
  | nil => simp [below?, eq_comm]
  | cons a as ih =>
    cases l with
    | nil => simp [below?]
    | cons b bs =>
      rw [below?]
      split
      next h =>
        subst h
        simp [ih]
      next h => simp [Ne.symm h]

/-- Nothing is found twice, so what is found at a location is its entry. -/
theorem lookup_eq_some_iff_mem {entries : List (Location × Entry)} (h : Ascending entries)
    {l : Location} {e : Entry} : entries.lookup l = some e ↔ (l, e) ∈ entries := by
  induction entries with
  | nil => simp
  | cons b rest ih =>
    obtain ⟨m, f⟩ := b
    have hrest : Ascending rest := List.Pairwise.of_cons h
    have hbelow : ∀ x ∈ rest, compare m x.1 = .lt := fun x hx => List.rel_of_pairwise_cons h hx
    rw [List.lookup_cons]
    split
    next hlm =>
      have hlm : l = m := by simpa using hlm
      subst hlm
      constructor
      · rintro ⟨⟩
        exact List.mem_cons_self
      · intro hm
        rcases List.mem_cons.1 hm with hm | hm
        · simp_all
        · have := hbelow _ hm
          simp at this
    next hlm =>
      rw [ih hrest, List.mem_cons]
      have hlm : l ≠ m := by simpa using hlm
      simp [hlm]

end FileTree

/-- A tree of directories and files. -/
structure FileTree where
  entries : List (Location × Entry)
  ascending : FileTree.Ascending entries
  rooted : FileTree.Rooted entries
  named : FileTree.Named entries

namespace FileTree

/-- The tree with nothing below its root. -/
def empty : FileTree where
  entries := []
  ascending := List.Pairwise.nil
  rooted := fun _ h => absurd h List.not_mem_nil
  named := fun _ h => absurd h List.not_mem_nil

/-- What is at a location. The root is a directory. -/
def lookup (t : FileTree) (l : Location) : Option Entry :=
  if l = [] then some .directory else t.entries.lookup l

@[simp] theorem lookup_nil (t : FileTree) : t.lookup [] = some .directory := by
  simp [lookup]

theorem lookup_eq_some_iff {t : FileTree} {l : Location} {e : Entry} (hl : l ≠ []) :
    t.lookup l = some e ↔ (l, e) ∈ t.entries := by
  rw [lookup, if_neg hl, lookup_eq_some_iff_mem t.ascending]

/-- What is at a location is below a directory. -/
theorem lookup_dropLast {t : FileTree} {l : Location} (h : t.lookup l ≠ none) :
    t.lookup l.dropLast = some .directory := by
  by_cases hl : l = []
  · simp [hl]
  · obtain ⟨e, he⟩ := Option.ne_none_iff_exists'.1 h
    rw [lookup_eq_some_iff hl] at he
    rcases (t.rooted _ he).2 with hr | hr
    · simp only at hr
      simp [hr]
    · have hne : l.dropLast ≠ [] := (t.rooted _ hr).1
      exact (lookup_eq_some_iff hne).2 hr

/-- The way to what is found consists of names. -/
theorem isName_of_lookup {t : FileTree} {l : Location} (h : t.lookup l ≠ none) {s : String}
    (hs : s ∈ l) : IsName s := by
  obtain ⟨e, he⟩ := Option.ne_none_iff_exists'.1 h
  exact t.named _ ((lookup_eq_some_iff (List.ne_nil_of_mem hs)).1 he) s hs

/-- A tree is determined by what is found in it. -/
theorem ext_lookup {s t : FileTree} (h : ∀ l, s.lookup l = t.lookup l) : s = t := by
  have hmem : ∀ a, a ∈ s.entries ↔ a ∈ t.entries := by
    rintro ⟨l, e⟩
    by_cases hl : l = []
    · subst hl
      constructor
      · intro ha
        exact absurd rfl (s.rooted _ ha).1
      · intro ha
        exact absurd rfl (t.rooted _ ha).1
    · rw [← lookup_eq_some_iff hl, ← lookup_eq_some_iff hl, h]
  have key : ∀ xs ys : List (Location × Entry), Ascending xs → Ascending ys →
      (∀ a, a ∈ xs ↔ a ∈ ys) → xs = ys := by
    intro xs
    induction xs with
    | nil =>
      intro ys _ _ hxy
      cases ys with
      | nil => rfl
      | cons y ys => exact absurd ((hxy y).2 List.mem_cons_self) List.not_mem_nil
    | cons x xs ih =>
      intro ys hx hy hxy
      cases ys with
      | nil => exact absurd ((hxy x).1 List.mem_cons_self) List.not_mem_nil
      | cons y ys =>
        have hirr : ∀ a : Location × Entry, compare a.1 a.1 ≠ .lt := by simp
        have hxy' : x = y := by
          rcases List.mem_cons.1 ((hxy x).1 List.mem_cons_self) with he | hxs
          · exact he
          · rcases List.mem_cons.1 ((hxy y).2 List.mem_cons_self) with he | hys
            · exact he.symm
            · exact absurd (Std.TransCmp.lt_trans (List.rel_of_pairwise_cons hy hxs)
                (List.rel_of_pairwise_cons hx hys)) (hirr y)
        subst hxy'
        congr 1
        refine ih ys hx.of_cons hy.of_cons fun a => ?_
        constructor
        · intro ha
          rcases List.mem_cons.1 ((hxy a).1 (List.mem_cons_of_mem _ ha)) with rfl | h'
          · exact absurd (List.rel_of_pairwise_cons hx ha) (hirr a)
          · exact h'
        · intro ha
          rcases List.mem_cons.1 ((hxy a).2 (List.mem_cons_of_mem _ ha)) with rfl | h'
          · exact absurd (List.rel_of_pairwise_cons hy ha) (hirr a)
          · exact h'
  have := key _ _ s.ascending t.ascending hmem
  cases s
  cases t
  simp_all

/-! ### Changing a tree -/

/-- Whether an entry can be put at a location: it consists of names, is below a directory and is not
one itself. -/
def Accepts (t : FileTree) (l : Location) : Prop :=
  l ≠ [] ∧ (∀ s ∈ l, IsName s) ∧ t.lookup l.dropLast = some .directory ∧
    t.lookup l ≠ some .directory

instance (t : FileTree) (l : Location) : Decidable (t.Accepts l) :=
  inferInstanceAs (Decidable (_ ∧ _ ∧ _ ∧ _))

theorem rooted_insertEntry {t : FileTree} {l : Location} (h : t.Accepts l) (e : Entry) :
    Rooted (insertEntry l e t.entries) := by
  obtain ⟨hl, -, hdir, hnot⟩ := h
  have keep : ∀ m, (m, Entry.directory) ∈ t.entries →
      (m, Entry.directory) ∈ insertEntry l e t.entries := by
    intro m hm
    refine (mem_insertEntry t.ascending).2 (.inr ⟨hm, ?_⟩)
    rintro rfl
    exact hnot ((lookup_eq_some_iff hl).2 hm)
  intro a ha
  rcases (mem_insertEntry t.ascending).1 ha with rfl | ⟨ha, -⟩
  · refine ⟨hl, ?_⟩
    by_cases hd : l.dropLast = []
    · exact .inl hd
    · exact .inr (keep _ ((lookup_eq_some_iff hd).1 hdir))
  · exact ⟨(t.rooted a ha).1, (t.rooted a ha).2.imp_right (keep _)⟩

theorem named_insertEntry {t : FileTree} {l : Location} (h : t.Accepts l) (e : Entry) :
    Named (insertEntry l e t.entries) := by
  intro a ha
  rcases (mem_insertEntry t.ascending).1 ha with rfl | ⟨ha, -⟩
  · exact h.2.1
  · exact t.named a ha

/-- The tree with an entry at a location, where one can be put there. -/
def put (t : FileTree) (l : Location) (e : Entry) : FileTree :=
  if h : t.Accepts l then {
    entries := insertEntry l e t.entries
    ascending := ascending_insertEntry t.ascending
    rooted := rooted_insertEntry h e
    named := named_insertEntry h e }
  else t

theorem lookup_put {t : FileTree} {l : Location} (h : t.Accepts l) (e : Entry) (m : Location) :
    (t.put l e).lookup m = if m = l then some e else t.lookup m := by
  rw [put, dif_pos h]
  by_cases hm : m = []
  · subst hm
    rw [lookup_nil, lookup_nil, if_neg (fun hl => h.1 hl.symm)]
  · simp only [lookup, if_neg hm]
    split
    next hml =>
      subst hml
      exact (lookup_eq_some_iff_mem (ascending_insertEntry t.ascending)).2
        ((mem_insertEntry t.ascending).2 (.inl rfl))
    next hml =>
      refine Option.ext fun f => ?_
      rw [lookup_eq_some_iff_mem (ascending_insertEntry t.ascending), mem_insertEntry t.ascending,
        lookup_eq_some_iff_mem t.ascending]
      simp [hml]

theorem put_of_not_accepts {t : FileTree} {l : Location} (h : ¬ t.Accepts l) (e : Entry) :
    t.put l e = t := by
  simp [put, h]

/-- The tree without what is at a location and below it. -/
def remove (t : FileTree) (l : Location) : FileTree where
  entries := t.entries.filter fun a => (below? l a.1).isNone
  ascending := List.Pairwise.filter _ t.ascending
  rooted := by
    intro a ha
    obtain ⟨hmem, hnot⟩ := List.mem_filter.1 ha
    refine ⟨(t.rooted a hmem).1, (t.rooted a hmem).2.imp_right fun hd => ?_⟩
    refine List.mem_filter.2 ⟨hd, ?_⟩
    rw [Option.isNone_iff_eq_none] at hnot ⊢
    cases hb : below? l a.1.dropLast with
    | none => rfl
    | some rest =>
      rw [below?_eq_some_iff] at hb
      have hne := (t.rooted a hmem).1
      have : below? l a.1 = some (rest ++ [a.1.getLast hne]) := by
        rw [below?_eq_some_iff, ← List.append_assoc, ← hb, List.dropLast_concat_getLast]
      simp [this] at hnot
  named := fun a ha => t.named a (List.mem_filter.1 ha).1

theorem lookup_remove (t : FileTree) (l : Location) {m : Location} (hm : m ≠ []) :
    (t.remove l).lookup m = if (below? l m).isSome then none else t.lookup m := by
  refine Option.ext fun e => ?_
  rw [lookup_eq_some_iff hm]
  simp only [remove, List.mem_filter]
  split
  next h => simp [Option.isNone_iff_eq_none, Option.isSome_iff_ne_none.1 h]
  next h =>
    rw [lookup_eq_some_iff hm]
    simp [Option.not_isSome_iff_eq_none.1 h]

/-- The tree with an entry at a location and with the directories above it, as far as they are
missing. -/
def plant (t : FileTree) (l : Location) (e : Entry) : FileTree :=
  let above := (List.range l.length).tail.map l.take
  let t := above.foldl (fun t m => if t.lookup m = none then t.put m .directory else t) t
  t.put l e

/-! ### Looking at a directory -/

/-- What is below a location, with the rest of each location, in ascending order. -/
def contents (t : FileTree) (l : Location) : List (Location × Entry) :=
  t.entries.filterMap fun (m, e) => match below? l m with
    | some [] | none => none
    | some rest => some (rest, e)

/-- The names directly below a location, in ascending order. -/
def names (t : FileTree) (l : Location) : List String :=
  (t.contents l).filterMap fun (rest, _) => match rest with
    | [name] => some name
    | _ => none

/-- The names of the files directly below a location, in ascending order. -/
def fileNames (t : FileTree) (l : Location) : List String :=
  (t.contents l).filterMap fun
    | ([name], .file ..) => some name
    | _ => none

end FileTree

end FpgaFlow
