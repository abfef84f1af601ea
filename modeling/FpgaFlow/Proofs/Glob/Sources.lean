import FpgaFlow.Proofs.Glob.Growth
import FpgaFlow.Proofs.Path.Order

/-!
# Sorted paths without repeats

Of several spellings of one path the one that was found first is kept
(`View.mem_kept`), and the paths that are kept ascend (`View.ascending_kept`).

**Main statement** `View.filter_kept_filter`: it makes no difference to leave out some
paths beforehand, if none of those that are kept is left out.
-/

namespace FpgaFlow

namespace View

/-- What is kept of the paths that were found, in the order of paths. -/
def kept (ps : List Path) : List Path :=
  withoutRepeats (sortPaths ps)

theorem findFiles_eq (v : View) (base : Path) (patterns : List String) :
    v.findFiles base patterns = (v.gather base patterns).map kept := by
  rw [findFiles, gather]
  cases patterns.mapM (v.filesOf base) <;> rfl

variable {ps : List Path} {p q r : Path}

theorem same_iff : p.same q = true ↔ p.components = q.components := by
  rw [Path.same, beq_iff_eq]

theorem same_comm (p q : Path) : p.same q = q.same p := by
  rw [Bool.eq_iff_iff, same_iff, same_iff, eq_comm]

/-! ### Sorting -/

theorem sortPaths_eq (ps : List Path) :
    sortPaths ps = ps.mergeSort fun p q => (p.order q).isLE := by
  have hle : (fun p q : Path => p.order q != .gt) = fun p q => (p.order q).isLE := by
    funext p q
    exact Ordering.isLE_eq_not_beq_gt.symm
  rw [sortPaths, hle]

theorem isLE_trans (p q r : Path) (hpq : (p.order q).isLE = true) (hqr : (q.order r).isLE = true) :
    (p.order r).isLE = true :=
  Std.TransCmp.isLE_trans hpq hqr

theorem isLE_total (p q : Path) : ((p.order q).isLE || (q.order p).isLE) = true := by
  have hswap : q.order p = (p.order q).swap := Std.OrientedCmp.eq_swap
  rw [hswap]
  cases p.order q <;> rfl

theorem pairwise_sortPaths (ps : List Path) :
    (sortPaths ps).Pairwise fun p q => (p.order q).isLE = true := by
  rw [sortPaths_eq]
  exact List.pairwise_mergeSort isLE_trans isLE_total ps

/-- Sorting is stable: the spellings of one path stay in their order. -/
theorem filter_sortPaths (r : Path) (ps : List Path) :
    (sortPaths ps).filter r.same = ps.filter r.same := by
  have hsorted : (ps.filter r.same).Pairwise fun p q => (p.order q).isLE = true := by
    refine List.pairwise_of_forall_mem_list fun p hp q hq => ?_
    have hp := same_iff.1 (List.of_mem_filter hp)
    have hq := same_iff.1 (List.of_mem_filter hq)
    rw [Path.order_eq_eq_iff.2 (same_iff.2 (hp.symm.trans hq))]
    rfl
  have hsub := List.sublist_mergeSort isLE_trans isLE_total hsorted List.filter_sublist
  rw [← sortPaths_eq] at hsub
  have hboth := hsub.filter r.same
  rw [List.filter_filter] at hboth
  simp only [Bool.and_self] at hboth
  refine (hboth.eq_of_length ?_).symm
  rw [sortPaths_eq]
  exact (((List.mergeSort_perm ps _).filter r.same).length_eq).symm

/-! ### Repeats -/

theorem mem_withoutRepeats :
    r ∈ withoutRepeats ps ↔ (ps.filter r.same).head? = some r := by
  induction ps with
  | nil => simp [withoutRepeats]
  | cons p ps ih =>
    rw [withoutRepeats, List.mem_cons, List.mem_filter, ih]
    cases hsame : r.same p with
    | true =>
      rw [same_comm] at hsame
      simp [hsame, same_comm r p, eq_comm]
    | false =>
      have hne : r ≠ p := by
        rintro rfl
        simp [Path.same] at hsame
      simp [hsame, same_comm p r, hne]

theorem mem_of_mem_withoutRepeats (h : r ∈ withoutRepeats ps) : r ∈ ps :=
  List.mem_of_mem_filter (List.mem_of_mem_head? (mem_withoutRepeats.1 h))

theorem ascending_withoutRepeats (h : ps.Pairwise fun p q => (p.order q).isLE = true) :
    (withoutRepeats ps).Pairwise fun p q => p.order q = .lt := by
  induction ps with
  | nil => exact .nil
  | cons p ps ih =>
    obtain ⟨hp, hps⟩ := List.pairwise_cons.1 h
    refine List.pairwise_cons.2 ⟨fun q hq => ?_, (ih hps).filter _⟩
    obtain ⟨hmem, hnot⟩ := List.mem_filter.1 hq
    rcases Ordering.isLE_iff_eq_lt_or_eq_eq.1 (hp q (mem_of_mem_withoutRepeats hmem)) with hlt | heq
    · exact hlt
    · rw [Path.order_eq_eq_iff.1 heq] at hnot
      cases hnot

/-! ### What is kept -/

/-- **Of several spellings the one that was found first is kept.** -/
theorem mem_kept : r ∈ kept ps ↔ (ps.filter r.same).head? = some r := by
  rw [kept, mem_withoutRepeats, filter_sortPaths]

theorem ascending_kept (ps : List Path) : (kept ps).Pairwise fun p q => p.order q = .lt :=
  ascending_withoutRepeats (pairwise_sortPaths ps)

/-- A list is what is kept if it is in order and has the first spelling of every path. -/
theorem kept_eq {files : List Path} (hascending : files.Pairwise fun p q => p.order q = .lt)
    (hfirst : ∀ r ∈ files, (ps.filter r.same).head? = some r)
    (hall : ∀ r ∈ ps, (ps.filter r.same).head? = some r → r ∈ files) : kept ps = files := by
  refine eq_of_ascending (ascending_kept ps) hascending fun r => ⟨fun hr => ?_, fun hr => ?_⟩
  · have hhead := mem_kept.1 hr
    exact hall r (List.mem_of_mem_filter (List.mem_of_mem_head? hhead)) hhead
  · exact mem_kept.2 (hfirst r hr)

/-- The first spelling of a path is kept. -/
theorem exists_kept (h : r ∈ ps) :
    ∃ q rest, q ∈ kept ps ∧ r.same q = true ∧ ps.filter r.same = q :: rest := by
  have hmem : r ∈ ps.filter r.same := List.mem_filter.2 ⟨h, same_iff.2 rfl⟩
  cases hfirst : ps.filter r.same with
  | nil =>
    rw [hfirst] at hmem
    cases hmem
  | cons q rest =>
    have hq : q ∈ ps.filter r.same := by rw [hfirst]; exact List.mem_cons_self
    have hsame : r.same q = true := List.of_mem_filter hq
    have hclass : q.same = r.same := by
      funext p
      rw [Path.same, Path.same, same_iff.1 hsame]
    refine ⟨q, rest, mem_kept.2 ?_, hsame, rfl⟩
    rw [hclass, hfirst]
    rfl

/-- **Paths may be left out before they are sorted**, if none of those that are kept is left out. It
is enough to look at some of them, the choice not depending on the spelling. -/
theorem filter_kept_filter {P K : Path → Bool} (hK : ∀ p q, p.same q = true → K p = K q)
    (hP : ∀ q ∈ kept ps, K q = true → P q = true) :
    (kept (ps.filter P)).filter K = (kept ps).filter K := by
  refine eq_of_ascending ((ascending_kept _).filter K)
    ((ascending_kept ps).filter K) fun r => ?_
  have hcomm : (ps.filter P).filter r.same = (ps.filter r.same).filter P := by
    rw [List.filter_filter, List.filter_filter]
    exact List.filter_congr fun q _ => Bool.and_comm _ _
  rw [List.mem_filter, List.mem_filter, mem_kept, hcomm]
  constructor
  · rintro ⟨hhead, hk⟩
    have hr : r ∈ ps :=
      List.mem_of_mem_filter (List.mem_of_mem_filter (List.mem_of_mem_head? hhead))
    obtain ⟨q, rest, hq, hsame, hfirst⟩ := exists_kept hr
    have hPq : P q = true := hP q hq (by rw [← hK r q hsame, hk])
    rw [hfirst, List.filter_cons_of_pos hPq, List.head?_cons, Option.some.injEq] at hhead
    rw [← hhead]
    exact ⟨hq, by rw [hhead]; exact hk⟩
  · rintro ⟨hkept, hk⟩
    obtain ⟨rest, hrest⟩ := List.head?_eq_some_iff.1 (mem_kept.1 hkept)
    rw [hrest, List.filter_cons_of_pos (hP r hkept hk)]
    exact ⟨rfl, hk⟩

end View

end FpgaFlow
