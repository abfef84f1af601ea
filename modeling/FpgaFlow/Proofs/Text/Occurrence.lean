import FpgaFlow.Text
import Mathlib.Data.List.Infix
import Mathlib.Order.Bounds.Basic

/-!
# Where a word stands in a text

A word stands in a text at an offset when its bytes do (`OccursAt`).  The bytes of a
character never begin within those of another one, so that a word stands only between
characters (`occursAt_iff`, `isValid_of_occursAt`).

`cutAt` cuts a text at the first place where a word stands: it finds one if there is
one (`cutAt_eq_none_iff`), and none before it (`isLeast_of_cutAt`).

A word does not stand across a character that it does not have (`infix_append_cons_iff`).
So a text that begins and ends with such characters can be put anywhere without making the
word stand in a new place at its ends (`Fenced`), and a search passes over it
(`Fenced.cutAt_append`).
-/

namespace FpgaFlow.Text

/-- The bytes of a word stand in a text from an offset on. -/
def OccursAt (word t : String) (i : Nat) : Prop :=
  t.toByteArray.extract i (i + word.utf8ByteSize) = word.toByteArray

/-! ### Cutting a text in two places -/

theorem eq_around_iff {t a word b : String} :
    t = a ++ word ++ b ↔ t.toList = a.toList ++ (word.toList ++ b.toList) := by
  rw [← String.toList_inj, String.toList_append, String.toList_append, List.append_assoc]

/-- Of two beginnings of a text the one with fewer bytes begins the other. -/
theorem exists_append_of_le {a b c d : String} (h : a ++ b = c ++ d)
    (hle : a.utf8ByteSize ≤ c.utf8ByteSize) : ∃ m, c = a ++ m ∧ b = m ++ d := by
  have hlist : a.toList ++ b.toList = c.toList ++ d.toList := by
    rw [← String.toList_append, h, String.toList_append]
  rcases List.append_eq_append_iff.1 hlist with ⟨m, hc, hb⟩ | ⟨m, ha, hd⟩
  · refine ⟨String.ofList m, ?_, ?_⟩ <;> rw [← String.toList_inj] <;> simp [hc, hb]
  · have hsplit : a = c ++ String.ofList m := by
      rw [← String.toList_inj]
      simp [ha]
    have hempty : String.ofList m = "" := by
      rw [← String.utf8ByteSize_eq_zero_iff]
      rw [hsplit, String.utf8ByteSize_append] at hle
      omega
    obtain rfl := String.ofList_eq_empty_iff.1 hempty
    refine ⟨"", by simp [hsplit], ?_⟩
    rw [← String.toList_inj]
    simp [hd]

/-- Two cuts at the same offset are the same. -/
theorem append_inj_of_size {a b c d : String} (h : a ++ b = c ++ d)
    (hsize : a.utf8ByteSize = c.utf8ByteSize) : a = c ∧ b = d := by
  obtain ⟨m, rfl, rfl⟩ := exists_append_of_le h hsize.le
  have hm : m = "" := by
    rw [← String.utf8ByteSize_eq_zero_iff]
    rw [String.utf8ByteSize_append] at hsize
    omega
  rw [hm]
  exact ⟨String.append_empty.symm, String.empty_append⟩

/-- Of two beginnings of a text the shorter one has fewer bytes. -/
theorem utf8ByteSize_le_of_length_le {a b c d : List Char} (h : a ++ b = c ++ d)
    (hle : a.length ≤ c.length) :
    (String.ofList a).utf8ByteSize ≤ (String.ofList c).utf8ByteSize := by
  obtain ⟨m, rfl⟩ := List.prefix_of_prefix_length_le (List.prefix_append a b)
    (h ▸ List.prefix_append c d) hle
  rw [String.ofList_append, String.utf8ByteSize_append]
  exact Nat.le_add_right _ _

/-! ### Bytes and characters -/

theorem occursAt_append (a word b : String) : OccursAt word (a ++ word ++ b) a.utf8ByteSize := by
  rw [OccursAt, String.append_assoc, String.toByteArray_append, String.toByteArray_append]
  have hmove := ByteArray.extract_append_size_add (a := a.toByteArray)
    (b := word.toByteArray ++ b.toByteArray) (i := 0) (j := word.utf8ByteSize)
  rw [Nat.add_zero, String.size_toByteArray] at hmove
  rw [hmove, ByteArray.extract_append_eq_left String.size_toByteArray.symm]

/-- The offsets where a word begins and ends are between characters. -/
theorem isValid_of_occursAt {word t : String} {i : Nat} (hw : word ≠ "") (h : OccursAt word t i) :
    String.Pos.Raw.IsValid t ⟨i⟩ ∧ String.Pos.Raw.IsValid t ⟨i + word.utf8ByteSize⟩ := by
  have hpos : word.utf8ByteSize ≠ 0 := fun h0 => hw (String.utf8ByteSize_eq_zero_iff.1 h0)
  have hsize := congrArg ByteArray.size h
  rw [ByteArray.size_extract, String.size_toByteArray, String.size_toByteArray] at hsize
  have hword : (t.toByteArray.extract i (i + word.utf8ByteSize)).IsValidUTF8 := by
    rw [h]
    exact word.isValidUTF8
  have hends := (String.Pos.Raw.isValidUTF8_extract_iff (s := t) ⟨i⟩ ⟨i + word.utf8ByteSize⟩
    (String.Pos.Raw.le_iff.2 (Nat.le_add_right _ _))
    (String.Pos.Raw.le_iff.2 (by simp only [String.byteIdx_rawEndPos]; omega))).1 hword
  rcases hends with heq | hends
  · have hbyte : i = i + word.utf8ByteSize := congrArg String.Pos.Raw.byteIdx heq
    omega
  · exact hends

/-- **A word stands where the text can be cut before and after it.** -/
theorem occursAt_iff {word t : String} {i : Nat} (hw : word ≠ "") :
    OccursAt word t i ↔ ∃ a b, t = a ++ word ++ b ∧ a.utf8ByteSize = i := by
  constructor
  · intro h
    obtain ⟨hbegin, hend⟩ := isValid_of_occursAt hw h
    obtain ⟨a, r, hr, ha⟩ := String.Pos.Raw.isValid_iff_exists_append.1 hbegin
    obtain ⟨c, b, hb, hc⟩ := String.Pos.Raw.isValid_iff_exists_append.1 hend
    have hsizea : a.utf8ByteSize = i := (congrArg String.Pos.Raw.byteIdx ha).symm
    have hsizec : c.utf8ByteSize = i + word.utf8ByteSize :=
      (congrArg String.Pos.Raw.byteIdx hc).symm
    obtain ⟨m, rfl, rfl⟩ := exists_append_of_le (hr.symm.trans hb) (by omega)
    have hsizem : m.utf8ByteSize = word.utf8ByteSize := by
      rw [String.utf8ByteSize_append] at hsizec
      omega
    have hm := occursAt_append a m b
    rw [← hb, OccursAt, hsizea, hsizem] at hm
    have hmw : m = word := String.toByteArray_inj.1 (hm.symm.trans h)
    exact ⟨a, b, by rw [hb, hmw], hsizea⟩
  · rintro ⟨a, b, rfl, rfl⟩
    exact occursAt_append a word b

/-! ### The first place -/

theorem cutAt_append {word s before after : List Char} (h : cutAt word s = some (before, after)) :
    s = before ++ (word ++ after) := by
  rw [← List.append_assoc]
  exact eq_of_cutAt h

/-- A text is not cut when the word does not stand in it. -/
theorem cutAt_eq_none_iff {word s : List Char} : cutAt word s = none ↔ ¬ word <:+: s := by
  induction s with
  | nil =>
    rw [cutAt, List.infix_nil]
    cases word <;> simp
  | cons c cs ih =>
    rw [cutAt, List.infix_cons_iff, not_or, ← ih]
    by_cases hw : word <+: c :: cs
    · simp [hw]
    · simp [hw]

/-- The word does not stand before the place where a text is cut. -/
theorem le_of_cutAt {word s before after a b : List Char} (h : cutAt word s = some (before, after))
    (hs : s = a ++ (word ++ b)) : before.length ≤ a.length := by
  induction s generalizing before after a with
  | nil =>
    rw [cutAt] at h
    split at h
    · obtain ⟨rfl, -⟩ := Prod.mk.inj (Option.some.inj h)
      exact Nat.zero_le _
    · cases h
  | cons c cs ih =>
    rw [cutAt] at h
    split at h
    · obtain ⟨rfl, -⟩ := Prod.mk.inj (Option.some.inj h)
      exact Nat.zero_le _
    next hw =>
      obtain ⟨⟨before', after'⟩, hcut, heq⟩ := Option.map_eq_some_iff.1 h
      obtain ⟨rfl, -⟩ := Prod.mk.inj heq
      cases a with
      | nil => exact absurd (List.isPrefixOf_iff_prefix.2 ⟨b, hs.symm⟩) hw
      | cons d ds =>
        obtain ⟨-, hcs⟩ := List.cons.inj hs
        exact Nat.succ_le_succ (ih hcut hcs)

/-- **A search that starts within a text finds the first place from there on.** -/
theorem isLeast_of_cutAt {word p s : String} {before after : List Char} (hw : word ≠ "")
    (h : cutAt word.toList s.toList = some (before, after)) :
    IsLeast {i | p.utf8ByteSize ≤ i ∧ OccursAt word (p ++ s) i}
      (p ++ String.ofList before).utf8ByteSize := by
  have hlist := cutAt_append h
  have hs : s = String.ofList before ++ word ++ String.ofList after :=
    eq_around_iff.2 (by simpa only [String.toList_ofList] using hlist)
  refine ⟨⟨?_, (occursAt_iff hw).2 ⟨_, String.ofList after, ?_, rfl⟩⟩, ?_⟩
  · rw [String.utf8ByteSize_append]
    exact Nat.le_add_right _ _
  · rw [hs]
    simp only [String.append_assoc]
  · rintro i ⟨hi, hword⟩
    obtain ⟨a, b, hab, rfl⟩ := (occursAt_iff hw).1 hword
    rw [String.append_assoc] at hab
    obtain ⟨m, rfl, hm⟩ := exists_append_of_le hab hi
    have hmlist : s.toList = m.toList ++ (word.toList ++ b.toList) := by
      rw [hm, String.toList_append, String.toList_append]
    have hsize := utf8ByteSize_le_of_length_le (hlist.symm.trans hmlist) (le_of_cutAt h hmlist)
    rw [String.ofList_toList] at hsize
    rw [String.utf8ByteSize_append, String.utf8ByteSize_append]
    exact Nat.add_le_add_left hsize _

/-! ### Over a character that is not in the word -/

theorem prefix_append_cons_iff {word x y : List Char} {c : Char} (hc : c ∉ word) :
    word <+: x ++ c :: y ↔ word <+: x := by
  constructor
  · intro h
    rcases List.prefix_or_prefix_of_prefix h (List.prefix_append x (c :: y)) with hw | ⟨m, rfl⟩
    · exact hw
    · cases m with
      | nil => rw [List.append_nil]
      | cons d ds =>
        obtain ⟨rfl, -⟩ := List.cons_prefix_cons.1 ((List.prefix_append_right_inj x).1 h)
        simp at hc
  · intro h
    exact h.trans (List.prefix_append x (c :: y))

/-- A word stands before a character that it does not have, or behind it. -/
theorem infix_append_cons_iff {word x y : List Char} {c : Char} (hc : c ∉ word) :
    word <:+: x ++ c :: y ↔ word <:+: x ∨ word <:+: y := by
  induction x with
  | nil =>
    have hnil := prefix_append_cons_iff (x := []) (y := y) hc
    rw [List.nil_append] at hnil ⊢
    rw [List.infix_cons_iff, hnil, List.prefix_nil, List.infix_nil]
  | cons d ds ih =>
    have hhead := prefix_append_cons_iff (x := d :: ds) (y := y) hc
    rw [List.cons_append] at hhead ⊢
    rw [List.infix_cons_iff, hhead, ih, List.infix_cons_iff, or_assoc]

/-- A search goes on behind a character that the word does not have. -/
theorem cutAt_append_cons {word x y : List Char} {c : Char} (hc : c ∉ word)
    (hx : ¬ word <:+: x) :
    cutAt word (x ++ c :: y) =
      (cutAt word y).map fun (before, after) => (x ++ c :: before, after) := by
  induction x with
  | nil =>
    have hnot : ¬ word.isPrefixOf (c :: y) = true := by
      rw [List.isPrefixOf_iff_prefix]
      intro hw
      exact hx ((prefix_append_cons_iff (x := []) hc).1 hw).isInfix
    rw [List.nil_append, cutAt, if_neg hnot]
    rfl
  | cons d ds ih =>
    rw [List.infix_cons_iff, not_or] at hx
    have hnot : ¬ word.isPrefixOf (d :: (ds ++ c :: y)) = true := by
      rw [List.isPrefixOf_iff_prefix]
      intro hw
      exact hx.1 ((prefix_append_cons_iff (x := d :: ds) hc).1 hw)
    rw [List.cons_append, cutAt, if_neg hnot, ih hx.2, Option.map_map]
    rfl

/-- The word does not stand in what is before the place where a text is cut. -/
theorem not_infix_of_cutAt {word s before after : List Char} (hw : word ≠ [])
    (h : cutAt word s = some (before, after)) : ¬ word <:+: before := by
  rintro ⟨a, b, rfl⟩
  have hs : s = a ++ (word ++ (b ++ (word ++ after))) := by
    rw [cutAt_append h]
    simp only [List.append_assoc]
  have hle := le_of_cutAt h hs
  have hpos := List.length_pos_iff.2 hw
  simp only [List.length_append] at hle
  omega

theorem cutAt_append_self {word rest : List Char} (hw : word ≠ []) :
    cutAt word (word ++ rest) = some ([], rest) := by
  cases word with
  | nil => exact absurd rfl hw
  | cons d ds =>
    have hfront : (d :: ds).isPrefixOf (d :: (ds ++ rest)) = true :=
      List.isPrefixOf_iff_prefix.2 (List.prefix_append (d :: ds) rest)
    rw [List.cons_append, cutAt, if_pos hfront, ← List.cons_append, List.drop_left]

/-- A search for one character stops at the first one. -/
theorem cutAt_single {c : Char} {s t : List Char} (h : c ∉ s) :
    cutAt [c] (s ++ c :: t) = some (s, t) := by
  induction s with
  | nil => simp [cutAt]
  | cons d ds ih =>
    rw [List.mem_cons, not_or] at h
    have hd : ¬ [c].isPrefixOf (d :: (ds ++ c :: t)) = true := by simp [h.1]
    rw [List.cons_append, cutAt, if_neg hd, ih h.2]
    rfl

/-- A text begins and ends with characters that the word does not have, so that the word
does not reach into it from outside. -/
structure Fenced (word s : List Char) : Prop where
  front : ∀ c ∈ s.head?, c ∉ word
  back : ∀ c ∈ s.getLast?, c ∉ word

namespace Fenced

variable {word x s y : List Char}

theorem nil (word : List Char) : Fenced word [] :=
  ⟨fun _ h => (by cases h), fun _ h => (by cases h)⟩

theorem append (hx : Fenced word x) (hs : Fenced word s) : Fenced word (x ++ s) := by
  constructor
  · intro c hc
    rw [List.head?_append] at hc
    cases hhead : x.head? with
    | none =>
      rw [hhead] at hc
      exact hs.front c hc
    | some d =>
      rw [hhead] at hc
      exact hx.front c (hhead ▸ hc)
  · intro c hc
    rw [List.getLast?_append] at hc
    cases hlast : s.getLast? with
    | none =>
      rw [hlast] at hc
      exact hx.back c hc
    | some d =>
      rw [hlast] at hc
      exact hs.back c (hlast ▸ hc)

theorem flatten {pieces : List (List Char)} (h : ∀ p ∈ pieces, Fenced word p) :
    Fenced word pieces.flatten := by
  induction pieces with
  | nil => exact nil word
  | cons p ps ih =>
    rw [List.flatten_cons]
    exact (h p List.mem_cons_self).append (ih fun q hq => h q (List.mem_cons_of_mem p hq))

theorem infix_append (hs : Fenced word s) (h : word <:+: x ++ s) : word <:+: x ∨ word <:+: s := by
  cases s with
  | nil => exact .inl (List.append_nil x ▸ h)
  | cons c cs =>
    rcases (infix_append_cons_iff (hs.front c rfl)).1 h with hx | hcs
    · exact .inl hx
    · exact .inr (List.infix_cons hcs)

theorem infix_flatten {pieces : List (List Char)} (hw : word ≠ [])
    (hpieces : ∀ p ∈ pieces, Fenced word p) (h : word <:+: pieces.flatten) :
    ∃ p ∈ pieces, word <:+: p := by
  induction pieces with
  | nil => exact absurd (List.infix_nil.1 h) hw
  | cons p ps ih =>
    have hrest : ∀ q ∈ ps, Fenced word q := fun q hq => hpieces q (List.mem_cons_of_mem p hq)
    rcases (flatten hrest).infix_append h with hp | hps
    · exact ⟨p, List.mem_cons_self, hp⟩
    · obtain ⟨q, hq, hword⟩ := ih hrest hps
      exact ⟨q, List.mem_cons_of_mem p hq, hword⟩

/-- A search passes over a text that the word neither stands in nor reaches into. -/
theorem cutAt_append (hs : Fenced word s) (hne : s ≠ []) (hx : ¬ word <:+: x)
    (hfree : ¬ word <:+: s) :
    cutAt word (x ++ (s ++ y)) =
      (cutAt word y).map fun (before, after) => (x ++ (s ++ before), after) := by
  obtain ⟨front, c, rfl⟩ := (List.eq_nil_or_concat' s).resolve_left hne
  have hc : c ∉ word := hs.back c (by simp)
  have hfront : ¬ word <:+: x ++ front := by
    intro h
    have hbegins : x ++ front <+: x ++ (front ++ [c]) := ⟨[c], List.append_assoc x front [c]⟩
    rcases hs.infix_append (h.trans hbegins.isInfix) with h' | h'
    · exact hx h'
    · exact hfree h'
  have hcut := cutAt_append_cons (y := y) hc hfront
  simpa only [List.append_assoc, List.cons_append, List.nil_append] using hcut

end Fenced

end FpgaFlow.Text
