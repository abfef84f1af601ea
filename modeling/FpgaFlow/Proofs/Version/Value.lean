import FpgaFlow.Version
import Mathlib.Algebra.Order.Field.Rat
import Mathlib.Data.List.DropRight
import Mathlib.Tactic.FieldSimp
import Mathlib.Tactic.Linarith
import Mathlib.Tactic.Positivity
import Mathlib.Tactic.Ring

/-!
# The numbers that versions write

A decimal consists of digits with at most one point and at least one digit (`IsDecimal`).
Its value is what stands before the point, read as a natural number, and what stands
behind it, read as tenths, hundredths and so on (`value`).

`parse?_eq_some_iff`: a version is read from every decimal and from nothing else.

**Main statement** (`orderNumeric_exact`): versions are compared as the values of the
texts they are read from.  Behind the point the digits decide from the left on
(`compare_tenths_of_trimmed`), when there are no zeros at the end; before it the number
of digits decides first (`compare_natural`), when there are no zeros in front.
-/

namespace FpgaFlow.Version

/-! ### Decimals and their values -/

/-- Digits with at most one point and at least one digit. -/
structure IsDecimal (s : String) : Prop where
  chars : ∀ c ∈ s.toList, c.isDigit = true ∨ c = '.'
  point : s.toList.count '.' ≤ 1
  digit : ∃ c ∈ s.toList, c.isDigit = true

def digit (c : Char) : ℕ :=
  c.toNat - '0'.toNat

/-- The number that a run of digits writes. -/
def natural : List Char → ℕ
  | [] => 0
  | c :: cs => digit c * 10 ^ cs.length + natural cs

/-- The number that a run of digits writes behind a point. -/
def tenths (ds : List Char) : ℚ :=
  natural ds / 10 ^ ds.length

/-- What stands before the first point. -/
def front (s : String) : List Char :=
  s.toList.takeWhile (· != '.')

/-- What stands behind the first point. -/
def behind (s : String) : List Char :=
  (s.toList.dropWhile (· != '.')).tail

/-- The number that a decimal writes. An empty part counts as zero. -/
def value (s : String) : ℚ :=
  natural (front s) + tenths (behind s)

/-! ### What versions are read from -/

theorem parts_eq (cs : List Char) :
    parts cs = (cs.takeWhile (· != '.'), (cs.dropWhile (· != '.')).tail) := by
  induction cs with
  | nil => rfl
  | cons c cs ih =>
    by_cases hc : c = '.'
    · subst hc
      rfl
    · have hne : (c != '.') = true := bne_iff_ne.2 hc
      have hnot : ¬ ['.'].isPrefixOf (c :: cs) = true := by
        simp [Ne.symm hc]
      rw [parts] at ih ⊢
      rw [Text.cutAt, if_neg hnot, List.takeWhile_cons, List.dropWhile_cons, if_pos hne, if_pos hne]
      cases hcut : Text.cutAt ['.'] cs with
      | none =>
        rw [hcut] at ih
        obtain ⟨hfront, hbehind⟩ := Prod.mk.inj ih
        rw [← hfront, ← hbehind]
        rfl
      | some parts =>
        rw [hcut] at ih
        rw [Option.map_some, Option.getD_some]
        rw [Option.getD_some] at ih
        rw [ih]

/-- A text without a point is all front. -/
theorem toList_cases (s : String) :
    (s.toList = front s ∧ behind s = []) ∨ s.toList = front s ++ '.' :: behind s := by
  have hsplit : s.toList = front s ++ s.toList.dropWhile (· != '.') :=
    List.takeWhile_append_dropWhile.symm
  cases hrest : s.toList.dropWhile (· != '.') with
  | nil =>
    rw [hrest, List.append_nil] at hsplit
    exact .inl ⟨hsplit, by rw [behind, hrest]; rfl⟩
  | cons c cs =>
    have hc : c = '.' := by
      have hhead := List.head?_dropWhile_not (· != '.') s.toList
      rw [hrest] at hhead
      simpa using hhead
    have hbehind : behind s = cs := by rw [behind, hrest]; rfl
    rw [hrest, hc, ← hbehind] at hsplit
    exact .inr hsplit

theorem point_notMem_front (s : String) : '.' ∉ front s := by
  intro h
  have hne := List.mem_takeWhile_imp (p := (· != '.')) h
  simp at hne

theorem mem_toList_iff {s : String} {c : Char} (hc : c ≠ '.') :
    c ∈ s.toList ↔ c ∈ front s ∨ c ∈ behind s := by
  rcases toList_cases s with ⟨hs, hnil⟩ | hs
  · rw [← hs, hnil]
    simp
  · rw [hs, List.mem_append, List.mem_cons]
    simp [hc]

theorem count_point_le_iff {s : String} : s.toList.count '.' ≤ 1 ↔ '.' ∉ behind s := by
  have hfront : (front s).count '.' = 0 := List.count_eq_zero.2 (point_notMem_front s)
  rcases toList_cases s with ⟨hs, hnil⟩ | hs
  · rw [hnil, hs, hfront]
    simp
  · rw [← List.count_eq_zero, hs, List.count_append, hfront, List.count_cons_self]
    omega

theorem ne_point_of_isDigit {c : Char} (hc : c.isDigit = true) : c ≠ '.' := by
  rintro rfl
  exact absurd hc (by decide)

theorem isDecimal_iff {s : String} : IsDecimal s ↔ ¬ (front s = [] ∧ behind s = []) ∧
    (∀ c ∈ front s, c.isDigit = true) ∧ ∀ c ∈ behind s, c.isDigit = true := by
  constructor
  · rintro ⟨hchars, hpoint, c, hc, hdigit⟩
    have hpart {d : Char} (hd : d ∈ front s ∨ d ∈ behind s) (hne : d ≠ '.') : d.isDigit = true :=
      (hchars d ((mem_toList_iff hne).2 hd)).resolve_right hne
    refine ⟨?_, fun d hd => hpart (.inl hd) ?_, fun d hd => hpart (.inr hd) ?_⟩
    · rintro ⟨hfront, hbehind⟩
      rw [mem_toList_iff (ne_point_of_isDigit hdigit), hfront, hbehind] at hc
      rcases hc with hc | hc <;> cases hc
    · rintro rfl
      exact point_notMem_front s hd
    · rintro rfl
      exact count_point_le_iff.1 hpoint hd
  · rintro ⟨hne, hfront, hbehind⟩
    refine ⟨fun c hc => ?_, count_point_le_iff.2 fun h => ?_, ?_⟩
    · by_cases hpoint : c = '.'
      · exact .inr hpoint
      · exact .inl (((mem_toList_iff hpoint).1 hc).elim (hfront c) (hbehind c))
    · exact ne_point_of_isDigit (hbehind '.' h) rfl
    · rcases not_and_or.1 hne with h | h
      · obtain ⟨c, hc⟩ := List.exists_mem_of_ne_nil _ h
        have hdigit := hfront c hc
        exact ⟨c, (mem_toList_iff (ne_point_of_isDigit hdigit)).2 (.inl hc), hdigit⟩
      · obtain ⟨c, hc⟩ := List.exists_mem_of_ne_nil _ h
        have hdigit := hbehind c hc
        exact ⟨c, (mem_toList_iff (ne_point_of_isDigit hdigit)).2 (.inr hc), hdigit⟩

/-- **A version is read from every decimal, and from nothing else.** -/
theorem parse?_eq_some_iff {s : String} {a : Version} : parse? s = some a ↔ IsDecimal s ∧
    a = ⟨s, (front s).dropWhile (· == '0'), (behind s).rdropWhile (· == '0')⟩ := by
  rw [isDecimal_iff, parse?, parts_eq]
  change (if (front s).isEmpty && (behind s).isEmpty then none
    else if (front s).all Char.isDigit && (behind s).all Char.isDigit then
      some ⟨s, (front s).dropWhile (· == '0'), (behind s).rdropWhile (· == '0')⟩
    else none) = some a ↔ _
  split
  next hnil =>
    have hnil' : front s = [] ∧ behind s = [] := by simpa using hnil
    exact iff_of_false (by simp) fun h => h.1.1 hnil'
  next hnil =>
    have hnil' : ¬ (front s = [] ∧ behind s = []) := by simpa using hnil
    split
    next hdigits =>
      have hdigits' : (∀ c ∈ front s, c.isDigit = true) ∧ ∀ c ∈ behind s, c.isDigit = true := by
        simpa using hdigits
      constructor
      · intro h
        exact ⟨⟨hnil', hdigits'⟩, (Option.some.inj h).symm⟩
      · rintro ⟨-, rfl⟩
        rfl
    next hdigits =>
      refine iff_of_false (by simp) fun h => hdigits ?_
      simpa using h.1.2

theorem text_of_parse? {s : String} {a : Version} (h : parse? s = some a) : a.text = s := by
  rw [(parse?_eq_some_iff.1 h).2]

/-! ### Comparing sums -/

theorem compare_eq_compare {α β : Type} [LinearOrder α] [LinearOrder β] {a b : α} {c d : β}
    (hlt : a < b ↔ c < d) (hgt : b < a ↔ d < c) : compare a b = compare c d := by
  rcases lt_trichotomy a b with h | rfl | h
  · rw [compare_lt_iff_lt.2 h, compare_lt_iff_lt.2 (hlt.1 h)]
  · have heq : c = d := le_antisymm (not_lt.1 fun h => lt_irrefl a (hgt.2 h))
      (not_lt.1 fun h => lt_irrefl a (hlt.2 h))
    rw [compare_eq_iff_eq.2 rfl, compare_eq_iff_eq.2 heq]
  · rw [compare_gt_iff_gt.2 h, compare_gt_iff_gt.2 (hgt.1 h)]

/-- Of two numbers the whole parts are compared first. -/
theorem compare_natCast_add (m n : ℕ) {r s : ℚ} (hr : 0 ≤ r ∧ r < 1) (hs : 0 ≤ s ∧ s < 1) :
    compare ((m : ℚ) + r) (n + s) = (compare m n).then (compare r s) := by
  rcases lt_trichotomy m n with h | rfl | h
  · have hle : (m : ℚ) + 1 ≤ n := by exact_mod_cast h
    rw [compare_lt_iff_lt.2 h]
    exact compare_lt_iff_lt.2 (by linarith [hr.2, hs.1])
  · rw [compare_eq_iff_eq.2 rfl]
    exact compare_eq_compare (add_lt_add_iff_left _) (add_lt_add_iff_left _)
  · have hle : (n : ℚ) + 1 ≤ m := by exact_mod_cast h
    rw [compare_gt_iff_gt.2 h]
    exact compare_gt_iff_gt.2 (by linarith [hr.1, hs.2])

/-! ### Runs of digits -/

variable {c d : Char} {cs ds : List Char}

theorem digit_lt (hc : c.isDigit = true) : digit c < 10 := by
  obtain ⟨-, hle⟩ := Char.isDigit_iff_toNat.1 hc
  have hnine : '9'.toNat = 57 := rfl
  have hzero : '0'.toNat = 48 := rfl
  rw [digit]
  omega

theorem digit_inj (hc : c.isDigit = true) (hd : d.isDigit = true) :
    digit c = digit d ↔ c = d := by
  have hc' := (Char.isDigit_iff_toNat.1 hc).1
  have hd' := (Char.isDigit_iff_toNat.1 hd).1
  rw [digit, digit, ← Char.toNat_inj]
  omega

theorem compare_digit (hc : c.isDigit = true) (hd : d.isDigit = true) :
    compare c d = compare (digit c) (digit d) := by
  have hc' := (Char.isDigit_iff_toNat.1 hc).1
  have hd' := (Char.isDigit_iff_toNat.1 hd).1
  have hlt : c < d ↔ digit c < digit d := by
    change c.toNat < d.toNat ↔ _
    rw [digit, digit]
    omega
  change compareOfLessAndEq c d = compareOfLessAndEq (digit c) (digit d)
  simp only [compareOfLessAndEq, hlt, digit_inj hc hd]

theorem natural_lt (h : ∀ c ∈ cs, c.isDigit = true) : natural cs < 10 ^ cs.length := by
  induction cs with
  | nil => exact Nat.one_pos
  | cons c cs ih =>
    have hc := digit_lt (h c List.mem_cons_self)
    have hcs := ih fun d hd => h d (List.mem_cons_of_mem c hd)
    calc natural (c :: cs) < digit c * 10 ^ cs.length + 10 ^ cs.length := by
          rw [natural]
          omega
      _ = (digit c + 1) * 10 ^ cs.length := by ring
      _ ≤ 10 * 10 ^ cs.length := Nat.mul_le_mul_right _ hc
      _ = 10 ^ (c :: cs).length := by rw [List.length_cons, pow_succ']

theorem tenths_cons (c : Char) (cs : List Char) :
    tenths (c :: cs) = (digit c + tenths cs) / 10 := by
  have hpow : (10 : ℚ) ^ cs.length ≠ 0 := by positivity
  rw [tenths, tenths, natural, List.length_cons, pow_succ]
  push_cast
  field_simp

theorem tenths_bounds (h : ∀ c ∈ cs, c.isDigit = true) : 0 ≤ tenths cs ∧ tenths cs < 1 := by
  have hlt : (natural cs : ℚ) < 10 ^ cs.length := by exact_mod_cast natural_lt h
  refine ⟨?_, ?_⟩
  · rw [tenths]
    positivity
  · rw [tenths, div_lt_one (by positivity)]
    exact hlt

theorem compare_tenths_cons (hc : ∀ b ∈ c :: cs, b.isDigit = true)
    (hd : ∀ b ∈ d :: ds, b.isDigit = true) : compare (tenths (c :: cs)) (tenths (d :: ds)) =
      (compare c d).then (compare (tenths cs) (tenths ds)) := by
  rw [List.forall_mem_cons] at hc hd
  rw [compare_digit hc.1 hd.1, ← compare_natCast_add _ _ (tenths_bounds hc.2) (tenths_bounds hd.2),
    tenths_cons, tenths_cons]
  exact compare_eq_compare (div_lt_div_iff_of_pos_right (by norm_num))
    (div_lt_div_iff_of_pos_right (by norm_num))

/-- Runs of the same length are compared from the left. -/
theorem compare_tenths_of_length_eq (hc : ∀ b ∈ cs, b.isDigit = true)
    (hd : ∀ b ∈ ds, b.isDigit = true) (hlength : cs.length = ds.length) :
    compare cs ds = compare (tenths cs) (tenths ds) := by
  induction cs generalizing ds with
  | nil =>
    obtain rfl := List.length_eq_zero_iff.1 hlength.symm
    exact (compare_eq_iff_eq.2 rfl).symm
  | cons c cs ih =>
    cases ds with
    | nil => cases hlength
    | cons d ds =>
      rw [List.compare_cons_cons, compare_tenths_cons hc hd,
        ih (fun b hb => hc b (List.mem_cons_of_mem c hb))
          (fun b hb => hd b (List.mem_cons_of_mem d hb)) (Nat.succ.inj hlength)]

/-! ### Zeros at the end -/

theorem tenths_nil : tenths [] = 0 := by
  norm_num [tenths, natural]

theorem tenths_concat_zero (cs : List Char) : tenths (cs ++ ['0']) = tenths cs := by
  induction cs with
  | nil =>
    have hzero : digit '0' = 0 := rfl
    rw [List.nil_append, tenths_cons, tenths_nil, hzero]
    norm_num
  | cons c cs ih => rw [List.cons_append, tenths_cons, ih, tenths_cons]

theorem tenths_rdropWhile (cs : List Char) :
    tenths (cs.rdropWhile (· == '0')) = tenths cs := by
  induction cs using List.reverseRecOn with
  | nil => rfl
  | append_singleton cs c ih =>
    by_cases hc : c = '0'
    · rw [List.rdropWhile_concat_pos (· == '0') _ _ (beq_iff_eq.2 hc), ih, hc, tenths_concat_zero]
    · rw [List.rdropWhile_concat_neg (· == '0') _ _ (by simpa using hc)]

theorem getLast?_rdropWhile_ne (cs : List Char) :
    (cs.rdropWhile (· == '0')).getLast? ≠ some '0' := by
  induction cs using List.reverseRecOn with
  | nil =>
    intro h
    cases h
  | append_singleton cs c ih =>
    by_cases hc : c = '0'
    · rw [List.rdropWhile_concat_pos (· == '0') _ _ (beq_iff_eq.2 hc)]
      exact ih
    · rw [List.rdropWhile_concat_neg (· == '0') _ _ (by simpa using hc), List.getLast?_concat]
      exact fun h => hc (Option.some.inj h)

theorem getLast?_ne_of_cons (h : (c :: cs).getLast? ≠ some '0') : cs.getLast? ≠ some '0' := by
  cases cs with
  | nil =>
    intro h
    cases h
  | cons d ds => rwa [List.getLast?_cons_cons] at h

theorem tenths_pos (h : ∀ b ∈ cs, b.isDigit = true) (hlast : cs.getLast? ≠ some '0')
    (hne : cs ≠ []) : 0 < tenths cs := by
  induction cs with
  | nil => exact absurd rfl hne
  | cons c cs ih =>
    rw [List.forall_mem_cons] at h
    rw [tenths_cons]
    by_cases hcs : cs = []
    · have hc : digit c ≠ digit '0' := by
        rw [ne_eq, digit_inj h.1 (by decide)]
        rintro rfl
        exact hlast (by rw [hcs]; rfl)
      have hpos : (0 : ℚ) < digit c := by exact_mod_cast Nat.pos_of_ne_zero hc
      rw [hcs, tenths_nil]
      positivity
    · have hpos := ih h.2 (getLast?_ne_of_cons hlast) hcs
      positivity

/-- **Runs without a zero at the end are compared from the left**, whatever their lengths. -/
theorem compare_tenths_of_trimmed (hc : ∀ b ∈ cs, b.isDigit = true)
    (hd : ∀ b ∈ ds, b.isDigit = true) (hcs : cs.getLast? ≠ some '0')
    (hds : ds.getLast? ≠ some '0') : compare cs ds = compare (tenths cs) (tenths ds) := by
  induction cs generalizing ds with
  | nil =>
    cases ds with
    | nil => exact (compare_eq_iff_eq.2 rfl).symm
    | cons d ds =>
      rw [List.compare_nil_cons, tenths_nil]
      exact (compare_lt_iff_lt.2 (tenths_pos hd hds (List.cons_ne_nil d ds))).symm
  | cons c cs ih =>
    cases ds with
    | nil =>
      rw [List.compare_cons_nil, tenths_nil]
      exact (compare_gt_iff_gt.2 (tenths_pos hc hcs (List.cons_ne_nil c cs))).symm
    | cons d ds =>
      rw [List.compare_cons_cons, compare_tenths_cons hc hd,
        ih (fun b hb => hc b (List.mem_cons_of_mem c hb))
          (fun b hb => hd b (List.mem_cons_of_mem d hb)) (getLast?_ne_of_cons hcs)
          (getLast?_ne_of_cons hds)]

/-! ### Zeros in front -/

theorem natural_dropWhile (cs : List Char) : natural (cs.dropWhile (· == '0')) = natural cs := by
  induction cs with
  | nil => rfl
  | cons c cs ih =>
    by_cases hc : c = '0'
    · have hzero : digit '0' = 0 := rfl
      rw [List.dropWhile_cons, if_pos (beq_iff_eq.2 hc), ih, hc, natural, hzero, Nat.zero_mul,
        Nat.zero_add]
    · rw [List.dropWhile_cons, if_neg (by simpa using hc)]

theorem head?_dropWhile_ne (cs : List Char) : (cs.dropWhile (· == '0')).head? ≠ some '0' := by
  intro h
  have hhead := List.head?_dropWhile_not (· == '0') cs
  rw [h] at hhead
  simp at hhead

theorem natural_eq_tenths (cs : List Char) : (natural cs : ℚ) = tenths cs * 10 ^ cs.length := by
  rw [tenths]
  field_simp

/-- A run with more digits, the first of which is not zero, writes the larger number. -/
theorem natural_lt_of_length_lt (hc : ∀ b ∈ cs, b.isDigit = true)
    (hd : ∀ b ∈ ds, b.isDigit = true) (hds : ds.head? ≠ some '0') (h : cs.length < ds.length) :
    natural cs < natural ds := by
  cases ds with
  | nil => cases h
  | cons d ds =>
    have hdigit : digit d ≠ digit '0' := by
      rw [ne_eq, digit_inj (hd d List.mem_cons_self) (by decide)]
      rintro rfl
      exact hds rfl
    have hpos : 1 ≤ digit d := Nat.pos_of_ne_zero hdigit
    calc natural cs < 10 ^ cs.length := natural_lt hc
      _ ≤ 10 ^ ds.length := Nat.pow_le_pow_right (by decide) (Nat.le_of_lt_succ h)
      _ ≤ digit d * 10 ^ ds.length := Nat.le_mul_of_pos_left _ hpos
      _ ≤ natural (d :: ds) := Nat.le_add_right _ _

/-- **Runs without a zero in front are compared by their lengths first**, and from the left
if they have the same length. -/
theorem compare_natural (hc : ∀ b ∈ cs, b.isDigit = true) (hd : ∀ b ∈ ds, b.isDigit = true)
    (hcs : cs.head? ≠ some '0') (hds : ds.head? ≠ some '0') :
    (compare cs.length ds.length).then (compare cs ds) = compare (natural cs) (natural ds) := by
  rcases lt_trichotomy cs.length ds.length with h | h | h
  · rw [compare_lt_iff_lt.2 h]
    exact (compare_lt_iff_lt.2 (natural_lt_of_length_lt hc hd hds h)).symm
  · have hpow : (0 : ℚ) < 10 ^ ds.length := by positivity
    rw [compare_eq_iff_eq.2 h]
    change compare cs ds = _
    rw [compare_tenths_of_length_eq hc hd h]
    have hscaled {as bs : List Char} (has : as.length = ds.length) (hbs : bs.length = ds.length) :
        tenths as < tenths bs ↔ natural as < natural bs := by
      have hcast : natural as < natural bs ↔ (natural as : ℚ) < natural bs := Nat.cast_lt.symm
      rw [hcast, natural_eq_tenths, natural_eq_tenths, has, hbs, mul_lt_mul_iff_left₀ hpow]
    exact compare_eq_compare (hscaled h rfl) (hscaled rfl h)
  · rw [compare_gt_iff_gt.2 h]
    exact (compare_gt_iff_gt.2 (natural_lt_of_length_lt hd hc hcs h)).symm

/-! ### Versions -/

variable {s t : String} {a b : Version}

/-- Versions are compared as the values of their texts. -/
theorem orderNumeric_eq (ha : parse? s = some a) (hb : parse? t = some b) :
    orderNumeric a b = compare (value s) (value t) := by
  obtain ⟨hs, rfl⟩ := parse?_eq_some_iff.1 ha
  obtain ⟨ht, rfl⟩ := parse?_eq_some_iff.1 hb
  obtain ⟨-, hfront, hbehind⟩ := isDecimal_iff.1 hs
  obtain ⟨-, hfront', hbehind'⟩ := isDecimal_iff.1 ht
  have hwhole := compare_natural
    (fun c hc => hfront c ((List.dropWhile_sublist _).subset hc))
    (fun c hc => hfront' c ((List.dropWhile_sublist _).subset hc))
    (head?_dropWhile_ne (front s)) (head?_dropWhile_ne (front t))
  have htenths := compare_tenths_of_trimmed
    (fun c hc => hbehind c ((List.rdropWhile_prefix _ _).subset hc))
    (fun c hc => hbehind' c ((List.rdropWhile_prefix _ _).subset hc))
    (getLast?_rdropWhile_ne (behind s)) (getLast?_rdropWhile_ne (behind t))
  rw [orderNumeric, ← Ordering.then_assoc, hwhole, htenths, natural_dropWhile, natural_dropWhile,
    tenths_rdropWhile, tenths_rdropWhile,
    ← compare_natCast_add _ _ (tenths_bounds hbehind) (tenths_bounds hbehind')]
  rfl

/-- **Versions are read from the decimals, and compared as the numbers that these write.** -/
theorem orderNumeric_exact : (∀ s, (∃ a, parse? s = some a) ↔ IsDecimal s) ∧
    ∀ s t a b, parse? s = some a → parse? t = some b →
      orderNumeric a b = compare (value s) (value t) ∧
        (orderNumeric a b = .eq ↔ value s = value t) := by
  refine ⟨fun s => ⟨?_, ?_⟩, fun s t a b ha hb => ?_⟩
  · rintro ⟨a, ha⟩
    exact (parse?_eq_some_iff.1 ha).1
  · intro hs
    exact ⟨_, parse?_eq_some_iff.2 ⟨hs, rfl⟩⟩
  · have horder := orderNumeric_eq ha hb
    exact ⟨horder, by rw [horder, compare_eq_iff_eq]⟩

/-- `007.50` and `7.5` are two spellings of one number. -/
theorem exact_paddedSeven : ∃ a b, parse? "007.50" = some a ∧ parse? "7.5" = some b ∧ a ≠ b ∧
    orderNumeric a b = compare (value "007.50") (value "7.5") ∧
    (orderNumeric a b = .eq ↔ value "007.50" = value "7.5") ∧ value "007.50" = 15 / 2 := by
  have ha : parse? "007.50" = some ⟨"007.50", ['7'], ['5']⟩ := by decide +kernel
  have hb : parse? "7.5" = some ⟨"7.5", ['7'], ['5']⟩ := by decide +kernel
  obtain ⟨horder, heq⟩ := orderNumeric_exact.2 _ _ _ _ ha hb
  exact ⟨_, _, ha, hb, by decide, horder, heq, by decide +kernel⟩

end FpgaFlow.Version
