import FpgaFlow.Inspection
import FpgaFlow.Proofs.Text.Lines

/-!
# The two forms of a report

A report is read line by line: a line that says whether a check passed (`isStatus`) begins an entry,
and the lines behind it that are set in deeper (`isDetail`) belong to it (`entries`).  No line of a
report is taken for another kind of line, whatever the names, messages and paths are, as long as
they are lines.

**Main statement** (`Inspection.short_report_leaves_out`): the lines of the short report are some of
those of the long one, in their order.  Both have one entry for each check, the short one with the
messages of the checks that failed, the long one with every message and every path, and both end
with the warning if a required check failed.
-/

namespace FpgaFlow

/-! ### Reading a report -/

namespace Inspection

/-- The lines that say whether a check passed. -/
def isStatus (l : List Char) : Bool :=
  "  [".toList.isPrefixOf l

/-- The lines that say more about a check. -/
def isDetail (l : List Char) : Bool :=
  "      ".toList.isPrefixOf l

/-- Each line that says whether a check passed, with what is said about that check right after
it. -/
def entries : List (List Char) → List (List Char × List (List Char))
  | [] => []
  | l :: ls => if isStatus l then (l, ls.takeWhile isDetail) :: entries ls else entries ls

theorem isStatus_of_isDetail {l : List Char} (h : isDetail l = true) : isStatus l = false := by
  obtain ⟨t, rfl⟩ := List.isPrefixOf_iff_prefix.1 h
  rfl

/-- A line that is not set in is neither. -/
theorem not_isStatus_of_head? {l : List Char} (h : l.head? ≠ some ' ') :
    isStatus l = false ∧ isDetail l = false := by
  cases l with
  | nil => exact ⟨rfl, rfl⟩
  | cons c l =>
    have hc : (' ' == c) = false := by
      rw [beq_eq_false_iff_ne]
      intro hc
      exact h (by rw [List.head?_cons, hc])
    simp [isStatus, isDetail, List.isPrefixOf, hc]

theorem map_fst_entries (ls : List (List Char)) :
    (entries ls).map Prod.fst = ls.filter isStatus := by
  induction ls with
  | nil => rfl
  | cons l ls ih =>
    by_cases hl : isStatus l = true
    · rw [entries, if_pos hl, List.map_cons, ih, List.filter_cons_of_pos hl]
    · rw [entries, if_neg hl, ih, List.filter_cons_of_neg hl]

/-- Lines that begin no entry are passed over. -/
theorem entries_append {ls : List (List Char)} (h : ∀ l ∈ ls, isStatus l = false)
    (rest : List (List Char)) : entries (ls ++ rest) = entries rest := by
  induction ls with
  | nil => rfl
  | cons l ls ih =>
    have hl : isStatus l = false := h l List.mem_cons_self
    rw [List.cons_append, entries, if_neg (by simp [hl])]
    exact ih fun l' hl' => h l' (List.mem_cons_of_mem l hl')

/-- An entry ends where the details end. -/
theorem entries_cons_append {l : List Char} {ds rest : List (List Char)} (hl : isStatus l = true)
    (hds : ∀ d ∈ ds, isDetail d = true) (hrest : rest.takeWhile isDetail = []) :
    entries (l :: (ds ++ rest)) = (l, ds) :: entries rest := by
  have hnone : ∀ d ∈ ds, isStatus d = false := fun d hd => isStatus_of_isDetail (hds d hd)
  rw [entries, if_pos hl, List.takeWhile_append_of_pos hds, hrest, List.append_nil,
    entries_append hnone]

end Inspection

/-! ### The lines of a check -/

namespace Check

open Inspection

/-- What is said about a check. -/
def details (verbose : Bool) (c : Check) : List String :=
  if verbose then c.messageLine :: c.pathLines else if c.passed then [] else [c.messageLine]

theorem lines_eq (verbose : Bool) (c : Check) :
    c.lines verbose = c.statusLine :: c.details verbose := by
  rw [lines, details]
  cases verbose <;> cases c.passed <;> rfl

theorem isStatus_statusLine (c : Check) : isStatus c.statusLine.toList = true := by
  rw [statusLine, isStatus]
  cases c.passed <;> simp

theorem isDetail_statusLine (c : Check) : isDetail c.statusLine.toList = false := by
  rw [Bool.eq_false_iff]
  intro hdetail
  have hstatus := c.isStatus_statusLine
  rw [isStatus_of_isDetail hdetail] at hstatus
  cases hstatus

theorem isDetail_of_mem_details {verbose : Bool} {c : Check} {l : String}
    (h : l ∈ c.details verbose) : isDetail l.toList = true := by
  have hmessage : isDetail c.messageLine.toList = true := by simp [messageLine, isDetail]
  have hpath : ∀ l ∈ c.pathLines, isDetail l.toList = true := by
    intro l hl
    obtain ⟨p, -, rfl⟩ := Option.map_eq_some_iff.1 (Option.mem_toList.1 hl)
    simp [isDetail]
  rw [details] at h
  split at h
  · rcases List.mem_cons.1 h with rfl | h
    · exact hmessage
    · exact hpath l h
  · split at h
    · cases h
    · rwa [List.mem_singleton.1 h]

/-- The line says whether the check passed, and behind the name whether it is required. -/
structure Marked (c : Check) (line : String) : Prop where
  passed : "  [OK] ".toList <+: line.toList ↔ c.passed = true
  failed : "  [!!] ".toList <+: line.toList ↔ c.passed = false
  named : ∃ mark rest, line = "  " ++ mark ++ " " ++ c.name ++ rest ∧ mark.length = 4 ∧
    (rest = " (optional)" ↔ c.required = false) ∧ (rest = "" ↔ c.required = true)

theorem marked_statusLine (c : Check) : c.Marked c.statusLine where
  passed := by
    rw [statusLine]
    cases c.passed <;> simp
  failed := by
    rw [statusLine]
    cases c.passed <;> simp
  named := by
    refine ⟨if c.passed then "[OK]" else "[!!]", if c.required then "" else " (optional)", rfl, ?_⟩
    cases c.passed <;> cases c.required <;> decide

/-- The short lines of a check are some of the long ones. -/
theorem lines_sublist (c : Check) : (c.lines false).Sublist (c.lines true) := by
  rw [lines_eq, lines_eq]
  refine List.Sublist.cons_cons c.statusLine ?_
  rw [details, details]
  cases c.passed
  · exact List.Sublist.cons_cons c.messageLine (List.nil_sublist _)
  · exact List.nil_sublist _

end Check

namespace Inspection

variable {i : Inspection}

/-! ### The lines of a report -/

/-- Nothing that a report shows goes over the end of a line. -/
structure Unbroken (i : Inspection) : Prop where
  root : '\n' ∉ i.installRoot.text.toList
  version : ∀ s ∈ i.version, '\n' ∉ s.toList
  name : ∀ c ∈ i.checks, '\n' ∉ c.name.toList
  message : ∀ c ∈ i.checks, '\n' ∉ c.message.toList
  path : ∀ c ∈ i.checks, ∀ p ∈ c.path, '\n' ∉ p.text.toList

theorem Unbroken.headLines (h : i.Unbroken) : ∀ l ∈ i.headLines, '\n' ∉ l.toList := by
  have hversion : '\n' ∉ (i.version.getD "none").toList := by
    cases hv : i.version with
    | none => decide
    | some s => exact h.version s hv
  have hbits : '\n' ∉ (toString i.bits).toList := Text.notMem_toString (by decide) i.bits
  have hhost : '\n' ∉ ("Host: " ++ toString i.bits).toList :=
    newline_notMem_append (by decide) hbits
  simp only [Inspection.headLines, List.forall_mem_cons]
  refine ⟨by decide, by decide, by decide, newline_notMem_append (by decide) h.root,
    newline_notMem_append (by decide) hversion, newline_notMem_append hhost (by decide), by decide,
    by decide, List.forall_mem_nil _⟩

theorem Unbroken.checkLines (h : i.Unbroken) {c : Check} (hc : c ∈ i.checks) (verbose : Bool) :
    ∀ l ∈ c.lines verbose, '\n' ∉ l.toList := by
  have hstatus : '\n' ∉ c.statusLine.toList := by
    refine newline_notMem_append (newline_notMem_append ?_ (h.name c hc)) ?_
    · cases c.passed <;> decide
    · cases c.required <;> decide
  have hmessage : '\n' ∉ c.messageLine.toList := newline_notMem_append (by decide) (h.message c hc)
  have hpath : ∀ l ∈ c.pathLines, '\n' ∉ l.toList := by
    intro l hl
    obtain ⟨p, hp, rfl⟩ := Option.map_eq_some_iff.1 (Option.mem_toList.1 hl)
    exact newline_notMem_append (by decide) (h.path c hc p hp)
  rw [Check.lines_eq, Check.details, List.forall_mem_cons]
  refine ⟨hstatus, ?_⟩
  split
  · exact List.forall_mem_cons.2 ⟨hmessage, hpath⟩
  · split
    · exact List.forall_mem_nil _
    · exact List.forall_mem_singleton.2 hmessage

theorem Unbroken.lines (h : i.Unbroken) (verbose : Bool) :
    ∀ l ∈ i.lines verbose, '\n' ∉ l.toList := by
  intro l hl
  rcases List.mem_append.1 hl with hl | hl
  · rcases List.mem_append.1 hl with hl | hl
    · exact h.headLines l hl
    · obtain ⟨c, hc, hl⟩ := List.mem_flatMap.1 hl
      exact h.checkLines hc verbose l hl
  · rw [tailLines] at hl
    split at hl
    · cases hl
    · have hwarning : ∀ l ∈ ["", "Warning: builds that run the toolchain will fail."],
          '\n' ∉ l.toList := by
        decide
      exact hwarning l hl

/-- The lines that are written are the lines that are read. -/
theorem Unbroken.lines_render (h : i.Unbroken) (verbose : Bool) :
    Text.lines (i.render verbose) = (i.lines verbose).map String.toList := by
  have hread : Text.lines (i.render verbose ++ "") =
      (i.lines verbose).map (fun l => (id l).toList) ++ Text.lines "" :=
    Text.lines_join (fun _ => rfl) (h.lines verbose) ""
  rwa [String.append_empty, show Text.lines "" = [] from rfl, List.append_nil] at hread

theorem lines_sublist (i : Inspection) : (i.lines false).Sublist (i.lines true) := by
  have hchecks (cs : List Check) :
      (cs.flatMap (Check.lines false)).Sublist (cs.flatMap (Check.lines true)) := by
    induction cs with
    | nil => exact List.Sublist.refl []
    | cons c cs ih => exact c.lines_sublist.append ih
  exact ((List.Sublist.refl _).append (hchecks i.checks)).append (List.Sublist.refl _)

/-! ### What stands around the checks -/

/-- The line that a report ends with if the toolchain cannot run. -/
def warning : String :=
  "Warning: builds that run the toolchain will fail."

theorem head?_headLines (i : Inspection) :
    ∀ l ∈ i.headLines, l.toList.head? ≠ some ' ' ∧ l.toList.head? ≠ some 'W' := by
  simp [headLines]

/-- The lines around the checks are neither entries nor details. -/
theorem plain_headLines (i : Inspection) :
    ∀ l ∈ i.headLines, isStatus l.toList = false ∧ isDetail l.toList = false := by
  intro l hl
  exact not_isStatus_of_head? (i.head?_headLines l hl).1

theorem plain_tailLines (i : Inspection) :
    ∀ l ∈ i.tailLines, isStatus l.toList = false ∧ isDetail l.toList = false := by
  have hwarning : ∀ l ∈ ["", warning], l.toList.head? ≠ some ' ' := by decide
  intro l hl
  refine not_isStatus_of_head? ?_
  rw [tailLines] at hl
  split at hl
  · cases hl
  · exact hwarning l hl

theorem head?_checkLines {verbose : Bool} {c : Check} {l : String} (hl : l ∈ c.lines verbose) :
    l.toList.head? ≠ some 'W' := by
  intro hhead
  have hplain := not_isStatus_of_head? (l := l.toList) (by simp [hhead])
  rw [Check.lines_eq] at hl
  rcases List.mem_cons.1 hl with rfl | hl
  · rw [c.isStatus_statusLine] at hplain
    cases hplain.1
  · rw [Check.isDetail_of_mem_details hl] at hplain
    cases hplain.2

theorem allRequiredPassed_eq_false_iff :
    i.allRequiredPassed = false ↔ ∃ c ∈ i.checks, c.required = true ∧ c.passed = false := by
  simp [allRequiredPassed]

theorem getLast?_lines (verbose : Bool) :
    (i.lines verbose).getLast? = some warning ↔
      ∃ c ∈ i.checks, c.required = true ∧ c.passed = false := by
  rw [← allRequiredPassed_eq_false_iff, lines, tailLines]
  cases hpassed : i.allRequiredPassed with
  | false =>
    have hne : ["", warning] ≠ [] := by decide
    exact iff_of_true (List.getLast?_append_of_ne_nil _ hne) rfl
  | true =>
    refine iff_of_false (fun hlast => ?_) (by decide)
    rw [if_pos rfl, List.append_nil] at hlast
    rcases List.mem_append.1 (List.mem_of_getLast? hlast) with hmem | hmem
    · exact (head?_headLines i _ hmem).2 rfl
    · obtain ⟨c, -, hmem⟩ := List.mem_flatMap.1 hmem
      exact head?_checkLines hmem rfl

/-! ### The entries of a report -/

/-- The lines of a check are one entry, and the entry before them ends there. -/
theorem entries_checks (verbose : Bool) (cs : List Check) {rest : List (List Char)}
    (hrest : rest.takeWhile isDetail = []) :
    ((cs.flatMap (Check.lines verbose)).map String.toList ++ rest).takeWhile isDetail = [] ∧
    entries ((cs.flatMap (Check.lines verbose)).map String.toList ++ rest) =
      cs.map (fun c => (c.statusLine.toList, (c.details verbose).map String.toList)) ++
        entries rest := by
  induction cs with
  | nil => exact ⟨hrest, rfl⟩
  | cons c cs ih =>
    have hdetails : ∀ d ∈ (c.details verbose).map String.toList, isDetail d = true := by
      intro d hd
      obtain ⟨l, hl, rfl⟩ := List.mem_map.1 hd
      exact Check.isDetail_of_mem_details hl
    rw [List.flatMap_cons, Check.lines_eq, List.map_append, List.map_cons, List.append_assoc,
      List.cons_append, entries_cons_append c.isStatus_statusLine hdetails ih.1, ih.2]
    refine ⟨?_, rfl⟩
    exact List.takeWhile_cons_of_neg (by simp [c.isDetail_statusLine])

/-- A report has one entry for each check. -/
theorem entries_lines (verbose : Bool) (i : Inspection) :
    entries ((i.lines verbose).map String.toList) =
      i.checks.map fun c => (c.statusLine.toList, (c.details verbose).map String.toList) := by
  have hhead : ∀ l ∈ i.headLines.map String.toList, isStatus l = false :=
    List.forall_mem_map.2 fun l hl => (i.plain_headLines l hl).1
  have htail : ∀ l ∈ i.tailLines.map String.toList, isStatus l = false :=
    List.forall_mem_map.2 fun l hl => (i.plain_tailLines l hl).1
  have hnone : entries (i.tailLines.map String.toList) = [] := by
    have happend := entries_append htail []
    rwa [List.append_nil] at happend
  have hend : (i.tailLines.map String.toList).takeWhile isDetail = [] := by
    rw [tailLines]
    split
    · rfl
    · exact List.takeWhile_cons_of_neg (by decide)
  rw [lines, List.map_append, List.map_append, List.append_assoc, entries_append hhead,
    (entries_checks verbose i.checks hend).2, hnone, List.append_nil]

/-- Nothing else in a report is set in as deep as what is said about a check. -/
theorem filter_isDetail_lines (verbose : Bool) (i : Inspection) :
    ((i.lines verbose).map String.toList).filter isDetail =
      (i.checks.flatMap (Check.details verbose)).map String.toList := by
  have hcheck (c : Check) :
      (c.lines verbose).filter (fun l => isDetail l.toList) = c.details verbose := by
    rw [Check.lines_eq, List.filter_cons, if_neg (by simp [c.isDetail_statusLine]),
      List.filter_eq_self]
    exact fun l => Check.isDetail_of_mem_details
  have hhead : i.headLines.filter (fun l => isDetail l.toList) = [] :=
    List.filter_eq_nil_iff.2 fun l hl => by simp [i.plain_headLines l hl]
  have htail : i.tailLines.filter (fun l => isDetail l.toList) = [] :=
    List.filter_eq_nil_iff.2 fun l hl => by simp [i.plain_tailLines l hl]
  rw [List.filter_map]
  refine congrArg (List.map String.toList) ?_
  rw [lines, List.filter_append, List.filter_append, List.filter_flatMap]
  simp only [Function.comp_def, hcheck, hhead, htail, List.nil_append, List.append_nil]

/-- A text says about each check what `said` gives: the checks are in their order, each with what
is said about it right behind it, nothing is said elsewhere, and the text ends with the warning if
a required check failed. -/
structure Reports (i : Inspection) (said : Check → List String) (text : String) : Prop where
  statuses : (Text.lines text).filter isStatus = i.checks.map fun c => c.statusLine.toList
  entries : entries (Text.lines text) =
    i.checks.map fun c => (c.statusLine.toList, (said c).map String.toList)
  details : (Text.lines text).filter isDetail = (i.checks.flatMap said).map String.toList
  warned : (Text.lines text).getLast? = some warning.toList ↔
    ∃ c ∈ i.checks, c.required = true ∧ c.passed = false

theorem Unbroken.reports (h : i.Unbroken) (verbose : Bool) :
    i.Reports (Check.details verbose) (i.render verbose) where
  statuses := by
    rw [← map_fst_entries, h.lines_render, entries_lines, List.map_map]
    rfl
  entries := by rw [h.lines_render, entries_lines]
  details := by rw [h.lines_render, filter_isDetail_lines]
  warned := by
    rw [← getLast?_lines verbose, h.lines_render, List.getLast?_map, Option.map_eq_some_iff]
    constructor
    · rintro ⟨l, hlast, hl⟩
      rwa [String.toList_inj.1 hl] at hlast
    · intro hlast
      exact ⟨warning, hlast, rfl⟩

/-- **The short report is the long one with lines left out.** -/
theorem short_report_leaves_out (h : i.Unbroken) :
    (Text.lines (i.render false)).Sublist (Text.lines (i.render true)) ∧
      (∀ c ∈ i.checks, c.Marked c.statusLine) ∧
      i.Reports (fun c => if c.passed then [] else [c.messageLine]) (i.render false) ∧
      i.Reports (fun c => c.messageLine :: c.pathLines) (i.render true) := by
  refine ⟨?_, fun c _ => c.marked_statusLine, h.reports false, h.reports true⟩
  rw [h.lines_render, h.lines_render]
  exact i.lines_sublist.map String.toList

/-- A report on a shell that was found and a synthesizer that was not. -/
def shellOnly : Inspection where
  installRoot := ⟨"/opt/Xilinx"⟩
  version := some "14.7"
  bits := 64
  checks := [⟨"bash", true, "found", some ⟨"/bin/bash"⟩, true⟩,
    ⟨"yosys", false, "not found", none, false⟩]

/-- The short report leaves out where the shell is and does not warn. -/
theorem report_shellOnly :
    (Text.lines (shellOnly.render false)).filter isDetail = ["      not found".toList] ∧
      (Text.lines (shellOnly.render true)).filter isDetail =
        ["      found".toList, "      Path: /bin/bash".toList, "      not found".toList] ∧
      (Text.lines (shellOnly.render true)).getLast? ≠ some warning.toList := by
  have h : shellOnly.Unbroken := ⟨by decide, by decide, by decide, by decide, by decide⟩
  obtain ⟨-, -, hshort, hlong⟩ := short_report_leaves_out h
  refine ⟨hshort.details, hlong.details, fun hlast => ?_⟩
  exact absurd (hlong.warned.1 hlast) (by decide)

end Inspection

end FpgaFlow
