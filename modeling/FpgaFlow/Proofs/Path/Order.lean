import FpgaFlow.Path
import Mathlib.Data.List.Sort

/-!
# The order of paths

Paths are in a total order, in which the spellings of one path are equal
(`Path.order_eq_eq_iff`).  In any order, an ascending list is determined by what is in
it (`eq_of_ascending`).
-/

namespace FpgaFlow

theorem eq_of_ascending {α : Type} {cmp : α → α → Ordering} [Std.OrientedCmp cmp] {as bs : List α}
    (ha : as.Pairwise fun a b => cmp a b = .lt) (hb : bs.Pairwise fun a b => cmp a b = .lt)
    (h : ∀ a, a ∈ as ↔ a ∈ bs) : as = bs := by
  have hnodup {cs : List α} (hc : cs.Pairwise fun a b => cmp a b = .lt) : cs.Nodup := by
    refine hc.imp fun {a b} hab heq => ?_
    have hself : cmp b b = .eq := Std.ReflCmp.compare_self
    rw [heq, hself] at hab
    cases hab
  refine ((List.perm_ext_iff_of_nodup (hnodup ha) (hnodup hb)).2 h).eq_of_pairwise ?_ ha hb
  intro a b _ _ hab hba
  have hgt : cmp a b = .gt := Std.OrientedCmp.gt_iff_lt.2 hba
  rw [hab] at hgt
  cases hgt

namespace Path

namespace Component

/-- The name of a component. -/
def spelling : Component → String
  | name s => s
  | _ => ""

theorem order_eq : order = compareLex (compareOn rank) (compareOn spelling) := by
  funext a b
  cases a <;> cases b <;> rfl

instance : Std.TransCmp order := by
  rw [order_eq]
  infer_instance

theorem eq_of_order {a b : Component} (h : a.order b = .eq) : a = b := by
  rw [order_eq, compareLex_eq_eq] at h
  obtain ⟨hrank, hspelling⟩ := h
  have hrank : a.rank = b.rank := Std.LawfulEqCmp.eq_of_compare hrank
  have hspelling : a.spelling = b.spelling := Std.LawfulEqCmp.eq_of_compare hspelling
  cases a <;> cases b <;> simp_all [rank, spelling]

instance : Std.LawfulEqCmp order where
  compare_self := Std.ReflCmp.compare_self
  eq_of_compare := eq_of_order

end Component

theorem orderComponents_eq : orderComponents = List.compareLex Component.order := by
  funext as bs
  induction as generalizing bs with
  | nil => cases bs <;> rfl
  | cons a as ih =>
    cases bs with
    | nil => rfl
    | cons b bs => rw [orderComponents, List.compareLex_cons_cons, ih]

instance : Std.TransCmp orderComponents := by
  rw [orderComponents_eq]
  infer_instance

/-- What two paths begin with does not decide between them. -/
theorem orderComponents_append (front as bs : List Component) :
    orderComponents (front ++ as) (front ++ bs) = orderComponents as bs := by
  induction front with
  | nil => rfl
  | cons c front ih =>
    have hself : c.order c = .eq := Std.ReflCmp.compare_self
    rw [List.cons_append, List.cons_append, orderComponents, hself, ih]
    rfl

instance : Std.TransCmp order where
  eq_swap := by
    intro p q
    rw [order, order, orderComponents_eq]
    exact Std.OrientedCmp.eq_swap
  isLE_trans := by
    intro p q r hpq hqr
    rw [order, orderComponents_eq] at hpq hqr ⊢
    exact Std.TransCmp.isLE_trans hpq hqr

/-- Only spellings of one path are equal in the order. -/
theorem order_eq_eq_iff {p q : Path} : p.order q = .eq ↔ p.same q = true := by
  rw [order, orderComponents_eq, Std.LawfulEqCmp.compare_eq_iff_eq, same, beq_iff_eq]

end Path

end FpgaFlow
