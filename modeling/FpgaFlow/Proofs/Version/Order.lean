import FpgaFlow.Proofs.Version.Value

/-!
# The order of versions

Versions are compared by the lengths of their whole parts, then by the whole parts, the
fractions and the texts (`order_eq`).  These are all the fields of a version, so the order
is total and no two versions are equal in it (the instances of `Std.TransCmp` and
`Std.LawfulEqCmp`).

* `order_of_value_lt`: a smaller number is a smaller version.
* `eq_sort_iff`: a list has one ascending arrangement, which `sort` finds.

**Main statement** (`order_lawful`): the laws of the order on versions that are read from
texts, and that sorting does not depend on the arrangement that it starts from.
-/

namespace FpgaFlow.Version

variable {s t : String} {a b c : Version} {vs ws : List Version}

/-! ### A total order -/

theorem order_eq : order = compareLex (compareOn fun v => v.whole.length)
    (compareLex (compareOn whole) (compareLex (compareOn fraction) (compareOn text))) := by
  funext a b
  rw [order, orderNumeric, Ordering.then_assoc, Ordering.then_assoc]
  rfl

instance : Std.TransCmp order := by
  rw [order_eq]
  infer_instance

instance : Std.LawfulEqCmp order where
  eq_of_compare {a b} h := by
    rw [order, orderNumeric, Ordering.then_eq_eq, Ordering.then_eq_eq, Ordering.then_eq_eq] at h
    obtain ⟨⟨-, hwhole, hfraction⟩, htext⟩ := h
    cases a
    cases b
    rw [Version.mk.injEq]
    exact ⟨Std.LawfulEqOrd.eq_of_compare htext, Std.LawfulEqOrd.eq_of_compare hwhole,
      Std.LawfulEqOrd.eq_of_compare hfraction⟩

@[simp] theorem order_self (a : Version) : order a a = .eq :=
  Std.ReflCmp.compare_self

theorem order_swap (a b : Version) : order a b = (order b a).swap :=
  Std.OrientedCmp.eq_swap

theorem order_eq_eq_iff : order a b = .eq ↔ a = b :=
  Std.LawfulEqCmp.compare_eq_iff_eq

/-- A version is the one that its text is read as. -/
theorem eq_iff_text_eq (ha : parse? s = some a) (hb : parse? t = some b) : a = b ↔ s = t := by
  constructor
  · rintro rfl
    rw [← text_of_parse? ha, text_of_parse? hb]
  · rintro rfl
    exact Option.some.inj (ha.symm.trans hb)

/-- **The order refines the order of the numbers.** -/
theorem order_of_value_lt (ha : parse? s = some a) (hb : parse? t = some b)
    (h : value s < value t) : order a b = .lt := by
  rw [order, orderNumeric_eq ha hb, compare_lt_iff_lt.2 h]
  rfl

theorem value_le_of_isLE (ha : parse? s = some a) (hb : parse? t = some b)
    (h : (order a b).isLE = true) : value s ≤ value t := by
  refine not_lt.1 fun hlt => ?_
  rw [order_swap, order_of_value_lt hb ha hlt] at h
  cases h

/-! ### Sorting -/

/-- Every version is at most equal to those that come later. -/
def Ascending (vs : List Version) : Prop :=
  vs.Pairwise fun a b => (order a b).isLE = true

theorem sort_eq (vs : List Version) : sort vs = vs.mergeSort fun a b => (order a b).isLE := by
  rw [sort]
  congr 1
  funext a b
  exact Ordering.isLE_eq_not_beq_gt.symm

theorem sort_perm (vs : List Version) : (sort vs).Perm vs :=
  List.mergeSort_perm vs _

theorem ascending_sort (vs : List Version) : Ascending (sort vs) := by
  rw [sort_eq]
  refine List.pairwise_mergeSort (fun a b c => Std.TransCmp.isLE_trans) (fun a b => ?_) vs
  rw [order_swap b a]
  cases order a b <;> rfl

/-- **A list of versions has one ascending arrangement.** -/
theorem eq_sort_iff : ws = sort vs ↔ ws.Perm vs ∧ Ascending ws := by
  constructor
  · rintro rfl
    exact ⟨sort_perm vs, ascending_sort vs⟩
  · rintro ⟨hperm, hascending⟩
    refine List.Perm.eq_of_pairwise (fun a b _ _ hab hba => ?_) hascending (ascending_sort vs)
      (hperm.trans (sort_perm vs).symm)
    exact order_eq_eq_iff.1 (Std.OrientedCmp.isLE_antisymm hab hba)

theorem sort_congr (h : vs.Perm ws) : sort vs = sort ws :=
  eq_sort_iff.2 ⟨(sort_perm vs).trans h, ascending_sort vs⟩

/-! ### The laws -/

/-- The laws of the order, at two versions that are read from `s` and `t` and at a third one. -/
structure Lawful (s t : String) (a b c : Version) : Prop where
  swap : order a b = (order b a).swap
  trans : (order a b).isLE = true → (order b c).isLE = true → (order a c).isLE = true
  eq_iff : order a b = .eq ↔ a = b
  text_iff : a = b ↔ s = t
  refines : value s < value t → order a b = .lt

/-- **The order of versions is a total order that agrees with equality and refines the order
of the numbers**, so that sorting has one result. -/
theorem order_lawful :
    (∀ s t a b c, parse? s = some a → parse? t = some b → Lawful s t a b c) ∧
    (∀ vs, (sort vs).Perm vs ∧ Ascending (sort vs)) ∧
    (∀ vs ws, ws.Perm vs → Ascending ws → ws = sort vs) ∧
    ∀ vs ws, vs.Perm ws → sort vs = sort ws := by
  refine ⟨fun s t a b c ha hb => ?_, fun vs => ⟨sort_perm vs, ascending_sort vs⟩,
    fun vs ws hperm hascending => eq_sort_iff.2 ⟨hperm, hascending⟩, fun vs ws => sort_congr⟩
  constructor
  case swap => exact order_swap a b
  case trans => exact Std.TransCmp.isLE_trans
  case eq_iff => exact order_eq_eq_iff
  case text_iff => exact eq_iff_text_eq ha hb
  case refines => exact order_of_value_lt ha hb

/-- Two spellings of one number have one ascending arrangement. -/
theorem lawful_spellings : ∃ a b, parse? "14.7" = some a ∧ parse? "14.70" = some b ∧ a ≠ b ∧
    value "14.7" = value "14.70" ∧ Lawful "14.7" "14.70" a b a ∧
    [a, b] = sort [b, a] ∧ sort [b, a] = sort [a, b] := by
  have ha : parse? "14.7" = some ⟨"14.7", ['1', '4'], ['7']⟩ := by decide +kernel
  have hb : parse? "14.70" = some ⟨"14.70", ['1', '4'], ['7']⟩ := by decide +kernel
  obtain ⟨hlawful, -, hsort, hcongr⟩ := order_lawful
  refine ⟨_, _, ha, hb, by decide, by decide +kernel, hlawful _ _ _ _ _ ha hb,
    hsort _ _ (.swap _ _ _) ?_, hcongr _ _ (.swap _ _ _)⟩
  exact List.pairwise_pair.2 (by decide +kernel)

end FpgaFlow.Version
