import FpgaFlow.Toml.Written

/-!
# Values in which moments are moments

The name of the entry of a moment is a key like others to a table, but a value with a map that has
it is refused, or written, in ways of its own.  A value is of the usual kind when this key stands
only in the moments of the document (`onlyMoments`).

* `wellDated_of_onlyMoments`: such a value has no moment that is not one.
* `exists_writtenAlone`: such a value can be written.
-/

namespace FpgaFlow

theorem mem_of_lookup_eq_some {β : Type} {entries : List (String × β)} {key : String} {b : β}
    (h : entries.lookup key = some b) : (key, b) ∈ entries := by
  obtain ⟨before, after, hentries, -⟩ := List.lookup_eq_some_iff.1 h
  rw [hentries]
  simp

namespace Toml

/-- Whether a map is a moment. -/
def isMoment : List (String × Datum) → Bool
  | [(key, .text s)] => key == momentKey && (moment? s).isSome
  | _ => false

mutual

/-- Whether the name of the entry of a moment stands only in moments. -/
def onlyMoments : Datum → Bool
  | .list items => onlyMomentsItems items
  | .map entries => isMoment entries || onlyMomentsEntries entries
  | _ => true

def onlyMomentsItems : List Datum → Bool
  | [] => true
  | d :: ds => onlyMoments d && onlyMomentsItems ds

def onlyMomentsEntries : List (String × Datum) → Bool
  | [] => true
  | (key, d) :: rest => key != momentKey && onlyMoments d && onlyMomentsEntries rest

end

theorem exists_of_isMoment {entries : List (String × Datum)} (h : isMoment entries = true) :
    ∃ s, entries = [(momentKey, .text s)] ∧ (moment? s).isSome = true := by
  unfold isMoment at h
  split at h
  next key s =>
    simp only [Bool.and_eq_true, beq_iff_eq] at h
    exact ⟨s, by rw [h.1], h.2⟩
  next => cases h

theorem onlyMomentsItems_iff {ds : List Datum} :
    onlyMomentsItems ds = true ↔ ∀ d ∈ ds, onlyMoments d = true := by
  induction ds with
  | nil => simp [onlyMomentsItems]
  | cons d ds ih => simp [onlyMomentsItems, ih]

theorem onlyMomentsEntries_iff {entries : List (String × Datum)} :
    onlyMomentsEntries entries = true ↔
      ∀ e ∈ entries, e.1 ≠ momentKey ∧ onlyMoments e.2 = true := by
  induction entries with
  | nil => simp [onlyMomentsEntries]
  | cons e entries ih => simp [onlyMomentsEntries, ih, and_assoc]

theorem onlyMoments_of_mem {entries : List (String × Datum)} {e : String × Datum}
    (h : onlyMoments (.map entries) = true) (he : e ∈ entries) : onlyMoments e.2 = true := by
  rw [onlyMoments, Bool.or_eq_true] at h
  rcases h with h | h
  · obtain ⟨s, rfl, -⟩ := exists_of_isMoment h
    obtain rfl := List.mem_singleton.1 he
    rfl
  · exact (onlyMomentsEntries_iff.1 h e he).2

theorem onlyMoments_of_lookup {entries : List (String × Datum)} {key : String} {d : Datum}
    (h : onlyMoments (.map entries) = true) (hd : entries.lookup key = some d) :
    onlyMoments d = true :=
  onlyMoments_of_mem h (mem_of_lookup_eq_some hd)

theorem onlyMoments_of_sublist {entries entries' : List (String × Datum)}
    (h : onlyMoments (.map entries) = true) (hsub : entries'.Sublist entries) :
    onlyMoments (.map entries') = true := by
  have horiginal := h
  rw [onlyMoments, Bool.or_eq_true] at h
  rcases h with h | h
  · obtain ⟨s, rfl, -⟩ := exists_of_isMoment h
    cases entries' with
    | nil => rfl
    | cons e rest =>
      have hrest : rest = [] := List.eq_nil_of_length_eq_zero (by simpa using hsub.length_le)
      rw [hsub.eq_of_length (by rw [hrest]; rfl)]
      exact horiginal
  · rw [onlyMoments, Bool.or_eq_true]
    exact .inr (onlyMomentsEntries_iff.2 fun e he => onlyMomentsEntries_iff.1 h e (hsub.subset he))

/-! ### Moments that are well formed -/

mutual

theorem wellDated_of_onlyMoments : ∀ d : Datum, onlyMoments d = true → wellDated d = true
  | .null, _ => rfl
  | .bool _, _ => rfl
  | .int _, _ => rfl
  | .float _, _ => rfl
  | .text _, _ => rfl
  | .list ds, h => wellDatedItems_of_onlyMoments ds h
  | .map [], _ => rfl
  | .map ((key, d) :: rest), h => by
    rw [onlyMoments, Bool.or_eq_true] at h
    rcases h with h | h
    · obtain ⟨s, hentries, hmoment⟩ := exists_of_isMoment h
      cases hentries
      rw [wellDated, if_pos rfl]
      exact hmoment
    · have hkey : key ≠ momentKey := (onlyMomentsEntries_iff.1 h (key, d) List.mem_cons_self).1
      unfold wellDated
      rw [if_neg hkey]
      exact wellDatedEntries_of_onlyMoments ((key, d) :: rest) h

theorem wellDatedItems_of_onlyMoments :
    ∀ ds : List Datum, onlyMomentsItems ds = true → wellDatedItems ds = true
  | [], _ => rfl
  | d :: ds, h => by
    rw [onlyMomentsItems, Bool.and_eq_true] at h
    rw [wellDatedItems, wellDated_of_onlyMoments d h.1, wellDatedItems_of_onlyMoments ds h.2]
    rfl

theorem wellDatedEntries_of_onlyMoments : ∀ entries : List (String × Datum),
    onlyMomentsEntries entries = true → wellDatedEntries entries = true
  | [], _ => rfl
  | (_, d) :: rest, h => by
    rw [onlyMomentsEntries, Bool.and_eq_true, Bool.and_eq_true] at h
    rw [wellDatedEntries, wellDated_of_onlyMoments d h.1.2,
      wellDatedEntries_of_onlyMoments rest h.2]
    rfl

end

/-! ### Writing -/

/-- A moment that is one has a text. -/
theorem exists_momentAlone {s : String} (h : (moment? s).isSome = true) :
    ∃ m, momentAlone (.text s) 0 = .ok m := by
  obtain ⟨m, hm⟩ := Option.isSome_iff_exists.1 h
  refine ⟨m, ?_⟩
  rw [momentAlone, hm]
  rfl

mutual

theorem exists_written : ∀ d : Datum, onlyMoments d = true → ∃ s, written d = .ok s
  | .null, _ => ⟨_, rfl⟩
  | .bool _, _ => ⟨_, rfl⟩
  | .int _, _ => ⟨_, rfl⟩
  | .float _, _ => ⟨_, rfl⟩
  | .text _, _ => ⟨_, rfl⟩
  | .list ds, h => by
    obtain ⟨parts, hparts⟩ := exists_writtenItems ds h
    exact ⟨_, by rw [written, hparts]; rfl⟩
  | .map [], _ => ⟨_, rfl⟩
  | .map ((key, d) :: rest), h => by
    rw [onlyMoments, Bool.or_eq_true] at h
    rcases h with h | h
    · obtain ⟨s, hentries, hmoment⟩ := exists_of_isMoment h
      cases hentries
      rw [written, if_pos rfl]
      exact exists_momentAlone hmoment
    · have hkey : key ≠ momentKey := (onlyMomentsEntries_iff.1 h (key, d) List.mem_cons_self).1
      obtain ⟨parts, hparts⟩ := exists_writtenEntries ((key, d) :: rest) h
      exact ⟨_, by rw [written, if_neg hkey, hparts]; rfl⟩

theorem exists_writtenItems :
    ∀ ds : List Datum, onlyMomentsItems ds = true → ∃ parts, writtenItems ds = .ok parts
  | [], _ => ⟨_, rfl⟩
  | d :: ds, h => by
    rw [onlyMomentsItems, Bool.and_eq_true] at h
    obtain ⟨s, hs⟩ := exists_written d h.1
    obtain ⟨parts, hparts⟩ := exists_writtenItems ds h.2
    exact ⟨_, by rw [writtenItems, hs, hparts]; rfl⟩

theorem exists_writtenEntries : ∀ entries : List (String × Datum),
    onlyMomentsEntries entries = true → ∃ parts, writtenEntries entries = .ok parts
  | [], _ => ⟨_, rfl⟩
  | (key, d) :: rest, h => by
    rw [onlyMomentsEntries, Bool.and_eq_true, Bool.and_eq_true] at h
    obtain ⟨s, hs⟩ := exists_written d h.1.2
    obtain ⟨parts, hparts⟩ := exists_writtenEntries rest h.2
    exact ⟨_, by rw [writtenEntries, hs, hparts]; rfl⟩

end

/-- **A value of the usual kind can be written.** -/
theorem exists_writtenAlone {d : Datum} (h : onlyMoments d = true) :
    ∃ s, writtenAlone d = .ok s := by
  unfold writtenAlone
  split
  next s => exact ⟨s, rfl⟩
  next key d rest =>
    split
    next hkey =>
      rw [onlyMoments, Bool.or_eq_true] at h
      rcases h with h | h
      · obtain ⟨s, hentries, hmoment⟩ := exists_of_isMoment h
        cases hentries
        obtain ⟨m, hm⟩ := exists_momentAlone hmoment
        exact ⟨_, congrArg (Except.map _) hm⟩
      · exact absurd hkey (onlyMomentsEntries_iff.1 h (key, d) List.mem_cons_self).1
    next => exact exists_written _ h
  next => exact exists_written _ h

end Toml

end FpgaFlow
