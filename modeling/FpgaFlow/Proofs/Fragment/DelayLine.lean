import FpgaFlow.Fragment
import Mathlib.Data.List.Nodup
import Mathlib.Data.List.Range
import Mathlib.Logic.ExistsUnique

/-!
# Crossing registers as delay lines

A fragment is read here as a synchronous netlist.  Nets are known by their names.
Between two edges of the clock every register shows what it holds, every net that is
assigned shows what it is assigned, and the other nets are driven from outside
(`Settles`).  At an edge all registers load together (`Clocks`), and a run is one edge
after the other (`Runs`).

The registers of a crossing have different names (`nodup_names_crossing`), so the nets
can settle in exactly one way (`settles_crossing_iff`).  An edge moves every value one
stage on (`Clocks.stage`), and by induction on the stages a value has reached the stage
number `i` after `i + 1` edges (`Runs.stage`).

**Main statement** `crossing_delays`: a crossing of `n` stages shows what its input was
`n` edges ago, whatever its registers held at first.
-/

namespace FpgaFlow.Fragment

/-! ### Fragments as netlists -/

section

variable {α : Type}

/-- The values of all nets between two edges, for what the registers hold and for the values that
come from outside. -/
structure Settles (f : Fragment) (contents outside value : String → α) : Prop where
  register : ∀ r ∈ f.registers, value r.name = contents r.name
  assigned : ∀ a ∈ f.assigns, value a.1 = value a.2
  free : ∀ net, net ∉ f.registers.map Register.name → net ∉ f.assigns.map Prod.fst →
    value net = outside net

/-- An edge of the clock: every register loads the value of its `next`, all at the same time. -/
def Clocks (f : Fragment) (outside before after : String → α) : Prop :=
  ∃ value, f.Settles before outside value ∧ ∀ r ∈ f.registers, after r.name = value r.next

/-- A run. The registers hold `contents k` after `k` edges, and `outside k` comes from outside
at the edge number `k`. -/
def Runs (f : Fragment) (outside contents : Nat → String → α) : Prop :=
  ∀ k, f.Clocks (outside (k + 1)) (contents k) (contents (k + 1))

/-- Where the registers have different names, every way in which the nets settle leads on. -/
theorem Settles.exists_clocks {f : Fragment} {contents outside value : String → α}
    (hnames : (f.registers.map Register.name).Nodup) (h : f.Settles contents outside value) :
    ∃ after, f.Clocks outside contents after := by
  classical
  refine ⟨fun net => if hr : ∃ r ∈ f.registers, r.name = net then value hr.choose.next
    else contents net, value, h, fun r hr => ?_⟩
  have hfound : ∃ r' ∈ f.registers, r'.name = r.name := ⟨r, hr, rfl⟩
  have hsame : hfound.choose = r :=
    List.inj_on_of_nodup_map hnames hfound.choose_spec.1 hr hfound.choose_spec.2
  exact (dif_pos hfound).trans (congrArg (fun r' => value r'.next) hsame)

/-- Where every edge leads on, there is a run from everything that the registers can hold. -/
theorem exists_runs {f : Fragment}
    (h : ∀ outside before : String → α, ∃ after, f.Clocks outside before after)
    (initial : String → α) (outside : Nat → String → α) :
    ∃ contents, contents 0 = initial ∧ f.Runs outside contents := by
  choose edge hedge using h
  exact ⟨fun k => k.rec initial fun j held => edge (outside (j + 1)) held, rfl,
    fun k => hedge (outside (k + 1)) _⟩

end

/-! ### The names of a crossing -/

theorem stageName_injective (output : String) : Function.Injective (stageName output) := by
  intro i j h
  have hnumber : toString i = toString j := (String.append_right_inj _).1 h
  have hdigits : Nat.toDigits 10 i = Nat.toDigits 10 j := by
    simpa only [Nat.toString_eq_repr, Nat.toList_repr] using congrArg String.toList hnumber
  calc
    i = Nat.ofDigitChars 10 (Nat.toDigits 10 i) 0 := Nat.ofDigitChars_ten_toDigits.symm
    _ = Nat.ofDigitChars 10 (Nat.toDigits 10 j) 0 := by rw [hdigits]
    _ = j := Nat.ofDigitChars_ten_toDigits

theorem stageName_ne_output (output : String) (i : Nat) : stageName output i ≠ output := by
  intro h
  have hlength := congrArg String.length h
  have hmark : "_mr".length = 3 := rfl
  rw [stageName, String.length_append, String.length_append, hmark] at hlength
  omega

section

variable {input output domain : String} {stages : Nat} {width : UInt32}

theorem mem_registers_crossing {r : Register} :
    r ∈ (crossing input output domain stages width).registers ↔
      ∃ i < max stages 1, r = ⟨stageName output i, width, domain, stageInput input output i⟩ := by
  simp only [crossing, List.mem_map, List.mem_range, eq_comm]

theorem names_crossing : (crossing input output domain stages width).registers.map Register.name =
    (List.range (max stages 1)).map (stageName output) := by
  rw [crossing, List.map_map]
  rfl

theorem nodup_names_crossing :
    ((crossing input output domain stages width).registers.map Register.name).Nodup := by
  rw [names_crossing]
  exact List.nodup_range.map (stageName_injective output)

/-! ### How the nets settle -/

variable {α : Type} {contents outside value before after : String → α}

/-- The value of a net of a crossing of `n` stages. -/
def crossingValue (output : String) (n : Nat) (contents outside : String → α) (net : String) : α :=
  if net = output then contents (stageName output (n - 1))
  else if net ∈ (List.range n).map (stageName output) then contents net
  else outside net

/-- The nets of a crossing can settle in one way only. -/
theorem settles_crossing_iff :
    (crossing input output domain stages width).Settles contents outside value ↔
      value = crossingValue output (max stages 1) contents outside := by
  have hlast : max stages 1 - 1 < max stages 1 := by omega
  constructor
  · intro h
    funext net
    have hstage : ∀ i < max stages 1, value (stageName output i) = contents (stageName output i) :=
      fun i hi => h.register _ (mem_registers_crossing.2 ⟨i, hi, rfl⟩)
    rw [crossingValue]
    split
    next hnet =>
      have hassigned := h.assigned (output, stageName output (max stages 1 - 1))
        (by simp [crossing])
      rw [hnet]
      exact hassigned.trans (hstage _ hlast)
    next hnet =>
      split
      next hmem =>
        obtain ⟨i, hi, rfl⟩ := List.mem_map.1 hmem
        exact hstage i (List.mem_range.1 hi)
      next hmem => exact h.free net (names_crossing ▸ hmem) (by simpa [crossing] using hnet)
  · rintro rfl
    have hstage : ∀ i < max stages 1, crossingValue output (max stages 1) contents outside
        (stageName output i) = contents (stageName output i) := by
      intro i hi
      rw [crossingValue, if_neg (stageName_ne_output output i),
        if_pos (List.mem_map_of_mem (List.mem_range.2 hi))]
    constructor
    case register =>
      intro r hr
      obtain ⟨i, hi, rfl⟩ := mem_registers_crossing.1 hr
      exact hstage i hi
    case assigned =>
      intro a ha
      obtain rfl : a = (output, stageName output (max stages 1 - 1)) := by simpa [crossing] using ha
      rw [hstage _ hlast, crossingValue, if_pos rfl]
    case free =>
      intro net hregister hassign
      have hnet : net ≠ output := by simpa [crossing] using hassign
      rw [crossingValue, if_neg hnet, if_neg (names_crossing ▸ hregister)]

end

/-! ### Edges and runs -/

section

variable {α : Type} {input output domain : String} {stages : Nat} {width : UInt32}
  {outside before after : String → α}

/-- An edge moves every value one stage on, and the value of the input into the first stage. -/
theorem Clocks.stage (houtput : input ≠ output)
    (hstages : ∀ i < max stages 1, input ≠ stageName output i)
    (h : (crossing input output domain stages width).Clocks outside before after) :
    after (stageName output 0) = outside input ∧
      ∀ i, i + 1 < max stages 1 →
        after (stageName output (i + 1)) = before (stageName output i) := by
  obtain ⟨value, hvalue, hload⟩ := h
  have hloaded : ∀ i < max stages 1,
      after (stageName output i) = value (stageInput input output i) :=
    fun i hi => hload _ (mem_registers_crossing.2 ⟨i, hi, rfl⟩)
  constructor
  · have hfree : input ∉ (List.range (max stages 1)).map (stageName output) := by
      intro hmem
      obtain ⟨i, hi, heq⟩ := List.mem_map.1 hmem
      exact hstages i (List.mem_range.1 hi) heq.symm
    have hinput : value input = outside input :=
      hvalue.free input (names_crossing ▸ hfree) (by simpa [crossing] using houtput)
    exact (hloaded 0 (by omega)).trans hinput
  · intro i hi
    have hheld : value (stageName output i) = before (stageName output i) :=
      hvalue.register _ (mem_registers_crossing.2 ⟨i, by omega, rfl⟩)
    exact (hloaded (i + 1) hi).trans hheld

/-- **After more than `i` edges the stage number `i` holds what the input was `i` edges before the
last one.** -/
theorem Runs.stage {outside contents : Nat → String → α} (houtput : input ≠ output)
    (hstages : ∀ i < max stages 1, input ≠ stageName output i)
    (h : (crossing input output domain stages width).Runs outside contents) {i k : Nat}
    (hi : i < max stages 1) (hk : i < k) :
    contents k (stageName output i) = outside (k - i) input := by
  induction i generalizing k with
  | zero =>
    obtain ⟨j, rfl⟩ : ∃ j, k = j + 1 := ⟨k - 1, by omega⟩
    exact (Clocks.stage houtput hstages (h j)).1
  | succ i ih =>
    obtain ⟨j, rfl⟩ : ∃ j, k = j + 1 := ⟨k - 1, by omega⟩
    have hmoved := (Clocks.stage houtput hstages (h j)).2 i hi
    have hedges : j + 1 - (i + 1) = j - i := by omega
    rw [hmoved, ih (by omega) (by omega), hedges]

/-- **A crossing is a delay line.** With `n` stages, and at least one, its output shows after `k`
edges what the input was at the edge number `k - n + 1`.  Its nets settle in exactly one way, and
there is a run from everything that its registers can hold. -/
theorem crossing_delays (input output domain : String) (stages : Nat) (width : UInt32)
    (houtput : input ≠ output) (hstages : ∀ i < max stages 1, input ≠ stageName output i) :
    (∀ contents outside : String → α,
      ∃! value, (crossing input output domain stages width).Settles contents outside value) ∧
    (∀ (initial : String → α) (outside : Nat → String → α), ∃ contents, contents 0 = initial ∧
      (crossing input output domain stages width).Runs outside contents) ∧
    (∀ outside contents : Nat → String → α,
      (crossing input output domain stages width).Runs outside contents →
      ∀ k, max stages 1 ≤ k → ∀ now value : String → α,
        (crossing input output domain stages width).Settles (contents k) now value →
        value output = outside (k - max stages 1 + 1) input) ∧
    (crossing input output domain stages width).registers.length = max stages 1 ∧
    (∀ r ∈ (crossing input output domain stages width).registers,
      r.width = width ∧ r.domain = domain) ∧
    ((crossing input output domain stages width).registers.map Register.name).Nodup := by
  have hsettle : ∀ contents outside : String → α,
      ∃! value, (crossing input output domain stages width).Settles contents outside value := by
    intro contents outside
    simp only [settles_crossing_iff]
    exact existsUnique_eq
  refine ⟨hsettle, ?_, ?_, ?_, ?_, nodup_names_crossing⟩
  · refine exists_runs fun outside before => ?_
    obtain ⟨value, hvalue, -⟩ := hsettle before outside
    exact hvalue.exists_clocks nodup_names_crossing
  · intro outside contents hruns k hk now value hvalue
    have hlast : max stages 1 - 1 < max stages 1 := by omega
    have hedges : k - (max stages 1 - 1) = k - max stages 1 + 1 := by omega
    have hshown : value output = contents k (stageName output (max stages 1 - 1)) := by
      rw [settles_crossing_iff.1 hvalue, crossingValue, if_pos rfl]
    rw [hshown, hruns.stage houtput hstages hlast (by omega), hedges]
  · rw [crossing, List.length_map, List.length_range]
  · intro r hr
    obtain ⟨i, -, rfl⟩ := mem_registers_crossing.1 hr
    exact ⟨rfl, rfl⟩

/-- Three stages whose input changes at every edge: after five edges the output shows what the input
was at the third one. -/
theorem delays_threeStages : "rx" ≠ "rx_sync" ∧
    (∀ i < max 3 1, "rx" ≠ stageName "rx_sync" i) ∧
    ∃ contents : Nat → String → Nat, contents 0 = (fun _ => 0) ∧
      (crossing "rx" "rx_sync" "sys" 3 8).Runs (fun k _ => k) contents ∧
      ∃ value, (crossing "rx" "rx_sync" "sys" 3 8).Settles (contents 5) (fun _ => 6) value ∧
        value "rx_sync" = 3 := by
  have houtput : "rx" ≠ "rx_sync" := by decide
  have hstages : ∀ i < max 3 1, "rx" ≠ stageName "rx_sync" i := by decide
  obtain ⟨hsettle, hrun, hdelay, -⟩ := crossing_delays (α := Nat) "rx" "rx_sync" "sys" 3 8 houtput
    hstages
  obtain ⟨contents, hinitial, hruns⟩ := hrun (fun _ => 0) fun k _ => k
  obtain ⟨value, hvalue, -⟩ := hsettle (contents 5) fun _ => 6
  exact ⟨houtput, hstages, contents, hinitial, hruns, value, hvalue,
    hdelay _ contents hruns 5 (by decide) _ value hvalue⟩

end

end FpgaFlow.Fragment
