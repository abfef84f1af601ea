import FpgaFlow.View
import Mathlib.Data.List.DropRight

/-!
# The steps of composed paths

Where a path leads is decided by its steps.  Joining paths joins their steps
(`Path.steps_join`), the path of a location has the names of the location as its
steps (`Path.steps_ofLocation`), and the parent of a path has the first of its
steps (`Path.steps_parent?`).
-/

namespace FpgaFlow.Path

open Text (splitOn)

/-- What stands between the slashes of a text, without what is empty. -/
def words (s : List Char) : List String :=
  ((splitOn '/' s).filter (· ≠ [])).map String.ofList

theorem steps_eq_words (p : Path) : p.steps = words p.text.toList := by
  rw [steps, pieces, words, List.filter_map]
  congr 1
  refine List.filter_congr fun s _ => ?_
  have hiff : (String.ofList s = "") ↔ s = [] := by
    constructor
    · intro h
      simpa using congrArg String.toList h
    · rintro rfl
      rfl
  simp [Function.comp, hiff]

theorem words_append_slash (s t : List Char) : words (s ++ '/' :: t) = words s ++ words t := by
  rw [words, Text.splitOn_append_cons, List.filter_append, List.map_append]
  rfl

theorem words_nil : words [] = [] := by
  simp [words, splitOn]

theorem steps_of_text_eq_empty {p : Path} (h : p.text = "") : p.steps = [] := by
  rw [steps_eq_words, h]
  exact words_nil

theorem toList_ne_nil {s : String} (h : s ≠ "") : s.toList ≠ [] := by
  intro hs
  exact h (String.toList_eq_nil_iff.1 hs)

theorem isAbsolute_eq_true_iff {p : Path} :
    p.isAbsolute = true ↔ ∃ rest, p.text.toList = '/' :: rest := by
  rw [isAbsolute, beq_iff_eq]
  cases h : p.text.toList with
  | nil => simp
  | cons c cs => simp

theorem text_ne_empty_of_isAbsolute {p : Path} (h : p.isAbsolute = true) : p.text ≠ "" := by
  obtain ⟨rest, hrest⟩ := isAbsolute_eq_true_iff.1 h
  intro he
  simp [he] at hrest

/-! ### Joining -/

/-- Between the two texts of joined paths stands one slash, which may be the end of the first. -/
theorem toList_join {p q : Path} (hq : q.isAbsolute = false) (hp : p.text ≠ "") :
    ∃ front, (p.join q).text.toList = front ++ '/' :: q.text.toList ∧
      (p.text.toList = front ∨ p.text.toList = front ++ ['/']) := by
  rw [join, if_neg (by simp [hq]), if_neg hp]
  split
  next hlast =>
    obtain ⟨front, hfront⟩ := List.getLast?_eq_some_iff.1 hlast
    exact ⟨front, by simp [hfront], .inr hfront⟩
  next hlast =>
    exact ⟨p.text.toList, by simp, .inl rfl⟩

/-- **Joining paths joins their steps.** -/
theorem steps_join (p : Path) {q : Path} (hq : q.isAbsolute = false) :
    (p.join q).steps = p.steps ++ q.steps := by
  by_cases hp : p.text = ""
  · rw [steps_of_text_eq_empty hp, List.nil_append, join, if_neg (by simp [hq]), if_pos hp]
  · obtain ⟨front, hjoin, hfront⟩ := toList_join hq hp
    rw [steps_eq_words, hjoin, words_append_slash, steps_eq_words p, steps_eq_words q]
    rcases hfront with hfront | hfront
    · rw [hfront]
    · rw [hfront, words_append_slash, words_nil, List.append_nil]

theorem isAbsolute_join {p : Path} (q : Path) (hp : p.isAbsolute = true) :
    (p.join q).isAbsolute = true := by
  cases hq : q.isAbsolute with
  | true => rw [join_of_isAbsolute p hq, hq]
  | false =>
    obtain ⟨rest, hrest⟩ := isAbsolute_eq_true_iff.1 hp
    obtain ⟨front, hjoin, hfront⟩ := toList_join hq (text_ne_empty_of_isAbsolute hp)
    rw [isAbsolute_eq_true_iff]
    rcases hfront with hfront | hfront
    · exact ⟨rest ++ '/' :: q.text.toList, by rw [hjoin, ← hfront, hrest, List.cons_append]⟩
    · cases front with
      | nil => exact ⟨q.text.toList, hjoin⟩
      | cons c cs =>
        obtain ⟨rfl, -⟩ := List.cons.inj (hrest.symm.trans hfront)
        exact ⟨cs ++ '/' :: q.text.toList, hjoin⟩

theorem isAbsolute_absolutize {base : Path} (hbase : base.isAbsolute = true) (p : Path) :
    (absolutize base p).isAbsolute = true := by
  rw [absolutize]
  split
  next h => exact h
  next h => exact isAbsolute_join p hbase

theorem isAbsolute_child {p : Path} (hp : p.isAbsolute = true) (name : String) :
    (p.child name).isAbsolute = true :=
  isAbsolute_join _ hp

/-! ### Locations and file names -/

theorem words_intercalate {names : List String} (h : ∀ s ∈ names, FileTree.IsName s) :
    words (List.intercalate ['/'] (names.map String.toList)) = names := by
  cases names with
  | nil => exact words_nil
  | cons n ns =>
    have hslash : ∀ p ∈ (n :: ns).map String.toList, '/' ∉ p := by
      intro p hp
      obtain ⟨s, hs, rfl⟩ := List.mem_map.1 hp
      exact (h s hs).2.2.2
    rw [words, Text.splitOn_intercalate (by simp) hslash, List.filter_eq_self.2]
    · simp
    · intro p hp
      obtain ⟨s, hs, rfl⟩ := List.mem_map.1 hp
      simpa using (h s hs).1

/-- **The path of a location has the names of the location as its steps.** -/
theorem steps_ofLocation {l : Location} (h : ∀ s ∈ l, FileTree.IsName s) :
    (ofLocation l).steps = l := by
  have htext : ("/" ++ String.intercalate "/" l).toList =
      [] ++ '/' :: List.intercalate ['/'] (l.map String.toList) := by
    rw [String.toList_append, String.toList_intercalate]
    rfl
  rw [steps_eq_words, ofLocation, htext, words_append_slash, words_nil, words_intercalate h,
    List.nil_append]

theorem isAbsolute_ofLocation (l : Location) : (ofLocation l).isAbsolute = true := by
  rw [isAbsolute_eq_true_iff]
  exact ⟨(String.intercalate "/" l).toList, by rw [ofLocation, String.toList_append]; rfl⟩

/-- A text without a slash at the end of a path makes its last step longer, or is one. -/
theorem steps_append {s t : String} (ht : '/' ∉ t.toList) (hne : t ≠ "") :
    ∃ way last, (⟨s ++ t⟩ : Path).steps = way ++ [last ++ t] := by
  obtain ⟨front, last, -, hst⟩ := Text.splitOn_append_of_notMem s.toList ht
  refine ⟨(front.filter (· ≠ [])).map String.ofList, String.ofList last, ?_⟩
  rw [steps_eq_words, words, String.toList_append, hst]
  have hlast : last ++ t.toList ≠ [] := by
    simp [toList_ne_nil hne]
  simp [List.filter_append, hlast, String.ofList_append]

/-! ### Parents -/

theorem slash_notMem_of_mem_pieces {p : Path} {s : String} (h : s ∈ p.pieces) :
    '/' ∉ s.toList := by
  obtain ⟨piece, hp, rfl⟩ := List.mem_map.1 h
  simpa using Text.notMem_of_mem_splitOn hp

theorem steps_intercalate {names : List String} (h : ∀ s ∈ names, '/' ∉ s.toList) :
    (⟨String.intercalate "/" names⟩ : Path).steps = names.filter (· ≠ "") := by
  cases names with
  | nil => exact steps_of_text_eq_empty rfl
  | cons n ns =>
    have hslash : ∀ p ∈ (n :: ns).map String.toList, '/' ∉ p := by
      intro p hp
      obtain ⟨s, hs, rfl⟩ := List.mem_map.1 hp
      exact h s hs
    have hpieces : (⟨String.intercalate "/" (n :: ns)⟩ : Path).pieces = n :: ns := by
      rw [pieces, String.toList_intercalate]
      exact (congrArg _ (Text.splitOn_intercalate (by simp) hslash)).trans (by simp)
    rw [steps, hpieces]

theorem steps_slash_append (s : String) :
    (⟨"/" ++ s⟩ : Path).steps = (⟨s⟩ : Path).steps := by
  have htext : ("/" ++ s).toList = [] ++ '/' :: s.toList := by
    rw [String.toList_append]
    rfl
  rw [steps_eq_words, htext, words_append_slash, words_nil, List.nil_append, ← steps_eq_words]

/-- What is dropped at the end counts for nothing. -/
theorem dropBlankEnd_append (ps : List String) :
    ∃ blank, ps = dropBlankEnd ps ++ blank ∧ ∀ s ∈ blank, s = "" ∨ s = "." := by
  refine ⟨ps.rtakeWhile fun s => s = "" || s = ".", List.rdropWhile_append_rtakeWhile.symm, ?_⟩
  intro s hs
  simpa using List.mem_rtakeWhile_imp hs

theorem ne_empty_of_dropBlankEnd {ps front : List String} {last : String}
    (h : dropBlankEnd ps = front ++ [last]) : last ≠ "" := by
  rintro rfl
  have hdrop : ps.rdropWhile (fun s => s = "" || s = ".") = front ++ [""] := h
  have hnot := List.rdropWhile_last_not (fun s => s = "" || s = ".") ps (by simp [hdrop])
  simp [hdrop] at hnot

/-- What is left without the last component, that component, and what counts for nothing. -/
theorem of_dropLastPiece? {ps qs : List String} (h : dropLastPiece? ps = some qs) :
    ∃ mid last blank, ps = qs ++ mid ++ [last] ++ blank ∧ last ≠ "" ∧
      ∀ s ∈ blank, s = "" ∨ s = "." := by
  obtain ⟨blank, hps, hblank⟩ := dropBlankEnd_append ps
  unfold dropLastPiece? at h
  split at h
  next => simp at h
  next hne =>
    obtain ⟨front, last, hkept⟩ := List.eq_nil_or_concat' (dropBlankEnd ps) |>.resolve_left hne
    rw [hkept, List.dropLast_concat, Option.some.injEq] at h
    obtain ⟨mid, hmid, -⟩ := dropBlankEnd_append front
    refine ⟨mid, last, blank, ?_, ne_empty_of_dropBlankEnd hkept, hblank⟩
    rw [← h, ← hmid, ← hkept]
    exact hps

/-- A path without a name at its end has the steps before that name, or fewer. -/
theorem steps_prefix_of_dropLastPiece? (front : List String) {ps qs way : List String}
    {name : String} (h : dropLastPiece? ps = some qs)
    (hps : (front ++ ps).filter (· ≠ "") = way ++ [name]) (hname : name ≠ ".") :
    (front ++ qs).filter (· ≠ "") <+: way := by
  obtain ⟨mid, last, blank, rfl, hlast, hblank⟩ := of_dropLastPiece? h
  have hnil : blank.filter (· ≠ "") = [] := by
    by_contra hne
    obtain ⟨init, s, hs⟩ := (List.eq_nil_or_concat' _).resolve_left hne
    have hmem : s ∈ blank.filter (· ≠ "") := by rw [hs]; simp
    obtain ⟨hb, hne⟩ := List.mem_filter.1 hmem
    have hdot : s = "." := (hblank s hb).resolve_left (by simpa using hne)
    have hend := congrArg List.getLast? hps
    simp only [← List.append_assoc, List.filter_append, hs, List.getLast?_concat,
      Option.some.injEq] at hend
    exact hname (hend ▸ hdot)
  have hsplit : (front ++ (qs ++ mid ++ [last] ++ blank)).filter (· ≠ "") =
      (front ++ qs).filter (· ≠ "") ++ mid.filter (· ≠ "") ++ [last] := by
    simp only [List.filter_append, hnil, List.append_nil, List.append_assoc]
    rw [List.filter_singleton]
    simp [hlast]
  rw [hsplit] at hps
  obtain ⟨hway, -⟩ := List.append_inj' hps rfl
  exact ⟨_, hway⟩

theorem slash_notMem_of_dropLastPiece? {p : Path} {first : String} {rest ps : List String}
    (hp : p.pieces = first :: rest) (h : dropLastPiece? rest = some ps) :
    ∀ s ∈ first :: ps, '/' ∉ s.toList := by
  obtain ⟨mid, last, blank, rfl, -, -⟩ := of_dropLastPiece? h
  intro s hs
  refine slash_notMem_of_mem_pieces (p := p) ?_
  rw [hp]
  rcases List.mem_cons.1 hs with rfl | hs
  · exact List.mem_cons_self
  · simp [hs]

/-- The pieces of a parent are the first pieces of the path. -/
theorem pieces_of_parent? {p q : Path} (h : p.parent? = some q) (hq : q.text ≠ "") :
    ∃ front rest ps, p.pieces = front ++ rest ∧ dropLastPiece? rest = some ps ∧
      q.steps = (front ++ ps).filter (· ≠ "") := by
  unfold parent? at h
  split at h
  next => simp at h
  next rest hpieces =>
    obtain ⟨ps, hps, rfl⟩ := Option.map_eq_some_iff.1 h
    have hslash := slash_notMem_of_dropLastPiece? hpieces hps
    refine ⟨[""], rest, ps, hpieces, hps, ?_⟩
    rw [steps_slash_append, steps_intercalate fun s hs => hslash s (List.mem_cons_of_mem _ hs)]
    rfl
  next first rest hfirst hpieces =>
    split at h
    next ps hps =>
      rw [Option.some.injEq] at h
      subst h
      exact ⟨[first], rest, ps, hpieces, hps,
        steps_intercalate (slash_notMem_of_dropLastPiece? hpieces hps)⟩
    next =>
      rw [Option.some.injEq] at h
      exact absurd (h ▸ rfl) hq

/-- **The parent of a path has the first of its steps.** -/
theorem steps_parent? {p q : Path} (h : p.parent? = some q) : q.steps <+: p.steps := by
  by_cases hq : q.text = ""
  · rw [steps_of_text_eq_empty hq]
    exact List.nil_prefix
  · obtain ⟨front, rest, ps, hpieces, hps, hsteps⟩ := pieces_of_parent? h hq
    obtain ⟨mid, last, blank, rfl, -, -⟩ := of_dropLastPiece? hps
    rw [hsteps, steps, hpieces]
    refine List.IsPrefix.filter _ ⟨mid ++ [last] ++ blank, ?_⟩
    simp only [List.append_assoc]

/-- Without the name at the end of the path. -/
theorem steps_parent?_of_concat {p q : Path} {way : List String} {name : String}
    (h : p.parent? = some q) (hq : q.text ≠ "") (hp : p.steps = way ++ [name])
    (hname : name ≠ ".") : q.steps <+: way := by
  obtain ⟨front, rest, ps, hpieces, hps, hsteps⟩ := pieces_of_parent? h hq
  rw [steps, hpieces] at hp
  rw [hsteps]
  exact steps_prefix_of_dropLastPiece? front hps hp hname

theorem isAbsolute_of_parent? {p q : Path} (h : p.parent? = some q) (hp : p.isAbsolute = true) :
    q.isAbsolute = true := by
  obtain ⟨rest, hrest⟩ := isAbsolute_eq_true_iff.1 hp
  have hpieces : p.pieces = "" :: (splitOn '/' rest).map String.ofList := by
    simp [pieces, hrest, splitOn]
  rw [parent?, hpieces] at h
  obtain ⟨ps, -, rfl⟩ := Option.map_eq_some_iff.1 h
  exact isAbsolute_eq_true_iff.2 ⟨(String.intercalate "/" ps).toList, by simp⟩

/-- Only a path without names has no parent. -/
theorem eq_dot_of_parent?_eq_none {p : Path} (hp : p.isAbsolute = true) (h : p.parent? = none) :
    ∀ s ∈ p.steps, s = "." := by
  obtain ⟨rest, hrest⟩ := isAbsolute_eq_true_iff.1 hp
  have hpieces : p.pieces = "" :: (splitOn '/' rest).map String.ofList := by
    simp [pieces, hrest, splitOn]
  rw [parent?, hpieces] at h
  have hnone := Option.map_eq_none_iff.1 h
  obtain ⟨blank, hblank, hall⟩ := dropBlankEnd_append ((splitOn '/' rest).map String.ofList)
  unfold dropLastPiece? at hnone
  split at hnone
  next hkept =>
    rw [hkept, List.nil_append] at hblank
    intro s hs
    rw [steps, hpieces, hblank] at hs
    obtain ⟨hmem, hne⟩ := List.mem_filter.1 hs
    have hne : s ≠ "" := by simpa using hne
    exact (hall s ((List.mem_cons.1 hmem).resolve_left hne)).resolve_left hne
  next => cases hnone

/-- The parents of the parent have the first of its steps as well. -/
theorem of_mem_ancestors {p q : Path} (h : q ∈ p.ancestors) :
    q.steps <+: p.steps ∧ (p.isAbsolute = true → q.isAbsolute = true) := by
  have key : ∀ (n : Nat) (p : Path), q ∈ ancestorsFrom n p →
      q.steps <+: p.steps ∧ (p.isAbsolute = true → q.isAbsolute = true) := by
    intro n
    induction n with
    | zero =>
      intro p hp
      rw [List.mem_singleton.1 hp]
      exact ⟨List.prefix_refl _, id⟩
    | succ n ih =>
      intro p hp
      rw [ancestorsFrom] at hp
      cases hparent : p.parent? with
      | none =>
        rw [hparent] at hp
        rw [List.mem_singleton.1 hp]
        exact ⟨List.prefix_refl _, id⟩
      | some r =>
        rw [hparent] at hp
        rcases List.mem_cons.1 hp with rfl | hp
        · exact ⟨List.prefix_refl _, id⟩
        · obtain ⟨hsteps, habs⟩ := ih r hp
          exact ⟨hsteps.trans (steps_parent? hparent),
            fun h => habs (isAbsolute_of_parent? hparent h)⟩
  exact key _ p h

end FpgaFlow.Path
