import FpgaFlow.Proofs.Version.Order

/-!
# The newest of some versions

Of all versions with a property one is the largest, if there are any (`IsNewest`), and only
one (`IsNewest.unique`).  `newest?` finds it in a list (`isNewest_newest?`).

A listing is gone through entry by entry: an entry that is a directory and is named by a
version takes the place of the best one so far if it is larger (`visit`).  One entry keeps
the best one so far the newest of what was seen (`IsNewest.visit`), and so does a whole
listing (`IsNewest.foldl_visit`), in whatever order it is listed.
-/

namespace FpgaFlow.Version

variable {p q : Version → Prop} {best best' : Option Version} {w : Version}

/-- The largest version with a property, or none if no version has it. -/
def IsNewest (p : Version → Prop) : Option Version → Prop
  | none => ∀ v, ¬ p v
  | some b => p b ∧ ∀ v, p v → (order v b).isLE = true

theorem IsNewest.unique (h : IsNewest p best) (h' : IsNewest p best') : best = best' := by
  cases best with
  | none =>
    cases best' with
    | none => rfl
    | some b => exact absurd h'.1 (h b)
  | some a =>
    cases best' with
    | none => exact absurd h.1 (h' a)
    | some b =>
      have hab := h'.2 a h.1
      have hba := h.2 b h'.1
      rw [order_eq_eq_iff.1 (Std.OrientedCmp.isLE_antisymm hab hba)]

/-- Versions that are smaller than the newest one do not count. -/
theorem IsNewest.congr_of_lt (h : IsNewest p best)
    (hpq : ∀ v, (p v ↔ q v) ∨ ∃ b, best = some b ∧ order v b = .lt) : IsNewest q best := by
  cases best with
  | none =>
    intro v hv
    rcases hpq v with hiff | ⟨b, hb, -⟩
    · exact h v (hiff.2 hv)
    · cases hb
  | some b =>
    refine ⟨?_, fun v hv => ?_⟩
    · rcases hpq b with hiff | ⟨b', hb, hlt⟩
      · exact hiff.1 h.1
      · obtain rfl := Option.some.inj hb
        rw [order_self] at hlt
        cases hlt
    · rcases hpq v with hiff | ⟨b', hb, hlt⟩
      · exact h.2 v (hiff.2 hv)
      · obtain rfl := Option.some.inj hb
        rw [hlt]
        rfl

theorem IsNewest.congr (h : IsNewest p best) (hpq : ∀ v, p v ↔ q v) : IsNewest q best :=
  h.congr_of_lt fun v => .inl (hpq v)

/-! ### One more version -/

/-- The best version so far, or the next one if that is larger. -/
def keep (best : Option Version) (v : Version) : Option Version :=
  match best with
  | none => some v
  | some b => if order v b = .gt then some v else some b

theorem IsNewest.keep (h : IsNewest p best) (w : Version) :
    IsNewest (fun v => p v ∨ v = w) (keep best w) := by
  have hself : (order w w).isLE = true := by
    rw [order_self]
    rfl
  cases best with
  | none =>
    refine ⟨.inr rfl, fun v hv => ?_⟩
    rcases hv with hv | rfl
    · exact absurd hv (h v)
    · exact hself
  | some b =>
    rw [Version.keep]
    split
    next hgt =>
      have hbw : (order b w).isLE = true := by
        rw [order_swap, hgt]
        rfl
      refine ⟨.inr rfl, fun v hv => ?_⟩
      rcases hv with hv | rfl
      · exact Std.TransCmp.isLE_trans (h.2 v hv) hbw
      · exact hself
    next hgt =>
      refine ⟨.inl h.1, fun v hv => ?_⟩
      rcases hv with hv | rfl
      · exact h.2 v hv
      · exact Ordering.ne_gt_iff_isLE.1 hgt

theorem newest?_cons (v : Version) (vs : List Version) :
    newest? (v :: vs) = Version.keep (newest? vs) v := by
  rw [newest?]
  cases newest? vs with
  | none => rfl
  | some w =>
    rw [Version.keep]
    have hswap := order_swap v w
    cases h : order w v with
    | lt => simp [h, hswap]
    | gt => simp [h, hswap]
    | eq =>
      obtain rfl := order_eq_eq_iff.1 h
      simp

theorem isNewest_newest? (vs : List Version) : IsNewest (· ∈ vs) (newest? vs) := by
  induction vs with
  | nil =>
    intro v hv
    cases hv
  | cons u us ih =>
    rw [newest?_cons]
    exact (ih.keep u).congr fun v => by rw [List.mem_cons, or_comm]

theorem mem_of_newest? {vs : List Version} (h : newest? vs = some w) : w ∈ vs := by
  have hnewest := isNewest_newest? vs
  rw [h] at hnewest
  exact hnewest.1

/-! ### Going through a listing -/

/-- An entry of a listing that is a directory and is named by a version. -/
def Candidate (isDirectory : String → Bool) (name : String) (v : Version) : Prop :=
  parse? name = some v ∧ isDirectory name = true

/-- One entry of a listing. A name that is no version and an entry that is no directory are
passed over. -/
def visit (isDirectory : String → Bool) (best : Option Version) (name : String) :
    Option Version :=
  match parse? name with
  | none => best
  | some v => if isDirectory name then keep best v else best

variable {isDirectory : String → Bool}

/-- **One entry** adds the version that it is, if it is one. -/
theorem IsNewest.visit (h : IsNewest p best) (name : String) :
    IsNewest (fun v => p v ∨ Candidate isDirectory name v) (visit isDirectory best name) := by
  rw [Version.visit]
  cases hname : parse? name with
  | none =>
    refine h.congr fun v => (or_iff_left ?_).symm
    rintro ⟨hv, -⟩
    rw [hname] at hv
    cases hv
  | some w =>
    by_cases hdirectory : isDirectory name = true
    · dsimp only
      rw [if_pos hdirectory]
      refine (h.keep w).congr fun v => ?_
      rw [Candidate, hname, Option.some.injEq, and_iff_left hdirectory, eq_comm]
    · dsimp only
      rw [if_neg hdirectory]
      refine h.congr fun v => (or_iff_left ?_).symm
      rintro ⟨-, hv⟩
      exact hdirectory hv

/-- **A whole listing** adds the versions that its entries are. -/
theorem IsNewest.foldl_visit (h : IsNewest p best) (isDirectory : String → Bool)
    (names : List String) :
    IsNewest (fun v => p v ∨ ∃ name ∈ names, Candidate isDirectory name v)
      (names.foldl (Version.visit isDirectory) best) := by
  induction names generalizing p best with
  | nil => exact h.congr fun v => by simp
  | cons name names ih =>
    refine (ih (h.visit name)).congr fun v => ?_
    simp only [List.mem_cons, exists_eq_or_imp, or_assoc]

end FpgaFlow.Version
