import FpgaFlow.Lowering
import Mathlib.Data.Set.Card

/-!
# The history of a lowering table

A table is changed by entering one lowering, by merging another table into it, and by putting
another table in its place.  To a kind of primitive a change does one of three things: it registers
a lowering for it (`Change.Registers`), it leaves it as it was (`Change.Leaves`), or it clears it
(`Change.Clears`).  What a table has for a kind after a history is then what was registered last
(`lookup_after_eq_some_iff`), unless it was cleared since (`lookup_after_eq_none_iff`).

**Main statement** (`LoweringTable.last_registration_lowers`): so a primitive is made by the
lowering that was last registered for its kind, whatever was done for the other kind.
-/

namespace FpgaFlow.LoweringTable

/-- What can be done to a table. -/
inductive Change where
  | insert (kind : PrimitiveKind) (f : Lowering)
  | merge (upper : LoweringTable)
  | replace (table : LoweringTable)

namespace Change

/-- The table after a change. -/
def apply (t : LoweringTable) : Change → LoweringTable
  | insert kind f => t.insert kind f
  | merge upper => t.merge upper
  | replace table => table

/-- A change makes `f` the lowering for a kind. -/
inductive Registers : Change → PrimitiveKind → Lowering → Prop
  | inserted (k : PrimitiveKind) (f : Lowering) : Registers (insert k f) k f
  | merged {upper : LoweringTable} {k : PrimitiveKind} {f : Lowering} :
    upper.lookup k = some f → Registers (merge upper) k f
  | replaced {table : LoweringTable} {k : PrimitiveKind} {f : Lowering} :
    table.lookup k = some f → Registers (replace table) k f

/-- A change says nothing about a kind. -/
inductive Leaves : Change → PrimitiveKind → Prop
  | inserted {k l : PrimitiveKind} (f : Lowering) : k ≠ l → Leaves (insert l f) k
  | merged {upper : LoweringTable} {k : PrimitiveKind} :
    upper.lookup k = none → Leaves (merge upper) k

/-- A change takes away what there was for a kind. -/
inductive Clears : Change → PrimitiveKind → Prop
  | replaced {table : LoweringTable} {k : PrimitiveKind} :
    table.lookup k = none → Clears (replace table) k

variable {t : LoweringTable} {c : Change} {k : PrimitiveKind} {f : Lowering}

theorem Registers.lookup (h : c.Registers k f) : (c.apply t).lookup k = some f := by
  cases h with
  | inserted => rw [apply, lookup_insert, if_pos rfl]
  | merged hf =>
    rw [apply, lookup_merge, hf]
    rfl
  | replaced hf => exact hf

theorem Leaves.lookup (h : c.Leaves k) : (c.apply t).lookup k = t.lookup k := by
  cases h with
  | inserted f hk => rw [apply, lookup_insert, if_neg hk]
  | merged hnone =>
    rw [apply, lookup_merge, hnone]
    rfl

theorem Clears.lookup (h : c.Clears k) : (c.apply t).lookup k = none := by
  cases h with
  | replaced hnone => exact hnone

/-- There is nothing else that a change can do to a kind. -/
theorem registers_or_leaves_or_clears (c : Change) (k : PrimitiveKind) :
    (∃ f, c.Registers k f) ∨ c.Leaves k ∨ c.Clears k := by
  cases c with
  | insert l f =>
    by_cases hk : k = l
    · subst hk
      exact .inl ⟨f, .inserted k f⟩
    · exact .inr (.inl (.inserted f hk))
  | merge upper =>
    cases h : upper.lookup k with
    | some f => exact .inl ⟨f, .merged h⟩
    | none => exact .inr (.inl (.merged h))
  | replace table =>
    cases h : table.lookup k with
    | some f => exact .inl ⟨f, .replaced h⟩
    | none => exact .inr (.inr (.replaced h))

end Change

/-! ### Histories -/

/-- The table after one change after the other. -/
def run (t : LoweringTable) (history : List Change) : LoweringTable :=
  history.foldl (fun t c => c.apply t) t

/-- The table after a history that began without entries. -/
def after (history : List Change) : LoweringTable :=
  run empty history

/-- `f` was registered for a kind, and since then nothing was done to that kind. -/
def Latest (history : List Change) (k : PrimitiveKind) (f : Lowering) : Prop :=
  ∃ before c later, history = before ++ c :: later ∧ c.Registers k f ∧ ∀ d ∈ later, d.Leaves k

/-- Nothing was registered for a kind, at least since it was cleared. -/
def Unset (history : List Change) (k : PrimitiveKind) : Prop :=
  ∃ before later, history = before ++ later ∧
    (before = [] ∨ ∃ before' c, before = before' ++ [c] ∧ c.Clears k) ∧ ∀ d ∈ later, d.Leaves k

variable {s t : LoweringTable} {history later : List Change} {k : PrimitiveKind} {f : Lowering}

theorem run_append (t : LoweringTable) (before later : List Change) :
    run t (before ++ later) = run (run t before) later :=
  List.foldl_append

theorem run_cons (t : LoweringTable) (c : Change) (later : List Change) :
    run t (c :: later) = run (c.apply t) later :=
  rfl

/-- Changes that say nothing about a kind leave its entry. -/
theorem lookup_run_of_leaves (h : ∀ c ∈ later, c.Leaves k) :
    (run t later).lookup k = t.lookup k := by
  induction later generalizing t with
  | nil => rfl
  | cons c later ih =>
    have hc : c.Leaves k := h c List.mem_cons_self
    rw [run_cons, ih fun d hd => h d (List.mem_cons_of_mem c hd), hc.lookup]

theorem Latest.lookup (h : Latest history k f) : (after history).lookup k = some f := by
  obtain ⟨before, c, later, rfl, hc, hlater⟩ := h
  rw [after, run_append, run_cons, lookup_run_of_leaves hlater, hc.lookup]

theorem Unset.lookup (h : Unset history k) : (after history).lookup k = none := by
  obtain ⟨before, later, rfl, hbefore, hlater⟩ := h
  rw [after, run_append, lookup_run_of_leaves hlater]
  rcases hbefore with rfl | ⟨before', c, rfl, hc⟩
  · exact lookup_empty k
  · rw [run_append, run_cons, run, List.foldl_nil, hc.lookup]

/-- One of the two holds of every history. -/
theorem latest_or_unset (history : List Change) (k : PrimitiveKind) :
    (∃ f, Latest history k f) ∨ Unset history k := by
  induction history using List.reverseRecOn with
  | nil => exact .inr ⟨[], [], rfl, .inl rfl, fun d hd => by cases hd⟩
  | append_singleton history c ih =>
    rcases c.registers_or_leaves_or_clears k with ⟨f, hc⟩ | hc | hc
    · exact .inl ⟨f, history, c, [], rfl, hc, fun d hd => by cases hd⟩
    · -- the change does nothing to the kind, so that what held before still holds
      have hmem {later : List Change} (h : ∀ d ∈ later, d.Leaves k) :
          ∀ d ∈ later ++ [c], d.Leaves k := by
        intro d hd
        rcases List.mem_append.1 hd with hd | hd
        · exact h d hd
        · rwa [List.mem_singleton.1 hd]
      rcases ih with ⟨f, before, c', later, rfl, hc', hlater⟩ |
        ⟨before, later, rfl, hbefore, hlater⟩
      · exact .inl ⟨f, before, c', later ++ [c], by simp, hc', hmem hlater⟩
      · exact .inr ⟨before, later ++ [c], by simp, hbefore, hmem hlater⟩
    · exact .inr ⟨history ++ [c], [], by simp, .inr ⟨history, c, rfl, hc⟩, fun d hd => by cases hd⟩

/-- **After a history a kind has what was registered for it last.** -/
theorem lookup_after_eq_some_iff : (after history).lookup k = some f ↔ Latest history k f := by
  refine ⟨fun h => ?_, Latest.lookup⟩
  rcases latest_or_unset history k with ⟨g, hg⟩ | hunset
  · obtain rfl := Option.some.inj (h.symm.trans hg.lookup)
    exact hg
  · rw [hunset.lookup] at h
    cases h

theorem lookup_after_eq_none_iff : (after history).lookup k = none ↔ Unset history k := by
  refine ⟨fun h => ?_, Unset.lookup⟩
  rcases latest_or_unset history k with ⟨g, hg⟩ | hunset
  · rw [hg.lookup] at h
    cases h
  · exact hunset

/-! ### The other kind -/

theorem Change.lookup_apply_congr (h : s.lookup k = t.lookup k) (c : Change) :
    (c.apply s).lookup k = (c.apply t).lookup k := by
  rcases c.registers_or_leaves_or_clears k with ⟨f, hc⟩ | hc | hc
  · rw [hc.lookup, hc.lookup]
  · rw [hc.lookup, hc.lookup, h]
  · rw [hc.lookup, hc.lookup]

/-- What a history does to a kind depends on that kind only. -/
theorem lookup_run_congr (h : s.lookup k = t.lookup k) (history : List Change) :
    (run s history).lookup k = (run t history).lookup k := by
  induction history generalizing s t with
  | nil => exact h
  | cons c history ih => exact ih (c.lookup_apply_congr h)

/-- A change that says nothing about a kind can be left out. -/
theorem lookup_after_of_leaves {c : Change} (hc : c.Leaves k) (before later : List Change) :
    (after (before ++ c :: later)).lookup k = (after (before ++ later)).lookup k := by
  rw [after, after, run_append, run_append, run_cons]
  exact lookup_run_congr hc.lookup later

theorem lower?_congr {p : Primitive} (h : s.lookup p.kind = t.lookup p.kind) :
    s.lower? p = t.lower? p := by
  rw [lower?, lower?, h]

/-! ### Merging and counting -/

theorem merge_assoc (a b c : LoweringTable) : (a.merge b).merge c = a.merge (b.merge c) := by
  refine ext_lookup fun k => ?_
  simp only [lookup_merge]
  cases c.lookup k <;> rfl

theorem empty_merge (t : LoweringTable) : empty.merge t = t := by
  refine ext_lookup fun k => ?_
  rw [lookup_merge, lookup_empty]
  cases t.lookup k <;> rfl

theorem merge_empty (t : LoweringTable) : t.merge empty = t := by
  refine ext_lookup fun k => ?_
  rw [lookup_merge, lookup_empty]
  rfl

theorem mem_kinds {t : LoweringTable} : k ∈ t.kinds ↔ ∃ f, t.lookup k = some f := by
  rw [kinds, List.mem_filter, Option.isSome_iff_exists]
  refine and_iff_right ?_
  cases k <;> decide

theorem nodup_kinds (t : LoweringTable) : t.kinds.Nodup :=
  List.Nodup.filter _ (by decide)

theorem size_eq_ncard (t : LoweringTable) :
    t.size = {k | ∃ f, t.lookup k = some f}.ncard := by
  have hkinds : {k | ∃ f, t.lookup k = some f} = (t.kinds.toFinset : Set PrimitiveKind) := by
    ext k
    rw [Set.mem_ofPred_eq, List.coe_toFinset, Set.mem_ofPred_eq, mem_kinds]
  rw [hkinds, Set.ncard_coe_finset, List.toFinset_card_of_nodup t.nodup_kinds, size]

/-! ### Lowering after a history -/

/-- **A primitive is made by the lowering that was last registered for its kind.** -/
theorem last_registration_lowers :
    (∀ (history : List Change) (p : Primitive),
      (∀ g, (after history).lower? p = some g ↔ ∃ f, Latest history p.kind f ∧ f p = g) ∧
      ((after history).lower? p = none ↔ Unset history p.kind)) ∧
    (∀ (before later : List Change) (c : Change) (p : Primitive), c.Leaves p.kind →
      (after (before ++ c :: later)).lower? p = (after (before ++ later)).lower? p) ∧
    ((∀ a b c : LoweringTable, (a.merge b).merge c = a.merge (b.merge c)) ∧
      ∀ t : LoweringTable, empty.merge t = t ∧ t.merge empty = t) ∧
    ∀ t : LoweringTable,
      (t.size = {k | ∃ f, t.lookup k = some f}.ncard ∧ (t.isEmpty = true ↔ t.size = 0)) ∧
      ∀ p, (∀ g, t.lower? p = some g → t.lower p = g) ∧
        (t.lower? p = none → t.lower p = Lowering.generic p) := by
  refine ⟨fun history p => ⟨fun g => ?_, ?_⟩, fun before later c p hc => ?_,
    ⟨merge_assoc, fun t => ⟨empty_merge t, merge_empty t⟩⟩,
    fun t => ⟨⟨t.size_eq_ncard, ?_⟩, fun p => ⟨fun g hg => ?_, fun hnone => ?_⟩⟩⟩
  · rw [lower?, Option.map_eq_some_iff]
    simp only [lookup_after_eq_some_iff]
  · rw [lower?, Option.map_eq_none_iff, lookup_after_eq_none_iff]
  · exact lower?_congr (lookup_after_of_leaves hc before later)
  · rw [isEmpty, size, List.isEmpty_iff, List.length_eq_zero_iff]
  · rw [lower, hg, Option.getD_some]
  · rw [lower, hnone, Option.getD_none]

/-- A history with a table put in place of another, and with a merge for one kind. -/
def chainsMadePlain : List Change :=
  [.insert .noRetiming Lowering.generic, .replace xilinx,
    .merge (empty.insert .multiReg Lowering.generic)]

/-- The merge does nothing to the register, and the chain is now made as it is everywhere. -/
theorem lowers_chainsMadePlain :
    (after chainsMadePlain).lower? (.noRetiming "a") = xilinx.lower? (.noRetiming "a") ∧
      (after chainsMadePlain).lower (.multiReg "d" "q" "sys" 2 1) =
        Lowering.generic (.multiReg "d" "q" "sys" 2 1) ∧
      empty.lower (.noRetiming "a") = Lowering.generic (.noRetiming "a") := by
  obtain ⟨hlast, hother, -, htable⟩ := last_registration_lowers
  refine ⟨?_, ?_, ?_⟩
  · exact hother [.insert .noRetiming Lowering.generic, .replace xilinx] [] _ (.noRetiming "a")
      (.merged rfl)
  · refine ((htable _).2 _).1 _ (((hlast _ _).1 _).2 ⟨Lowering.generic, ?_, rfl⟩)
    exact ⟨[.insert .noRetiming Lowering.generic, .replace xilinx], _, [], rfl, .merged rfl,
      fun d hd => by cases hd⟩
  · exact ((htable empty).2 _).2 rfl

end FpgaFlow.LoweringTable
