import FpgaFlow.Proofs.Host.Writing
import FpgaFlow.Proofs.Tree.Overwriting

/-!
# Hosts seen from another directory

What an absolute path leads to does not depend on the directory that it is looked at
from (`View.find_of_tree_eq`), and neither does what is done through it
(`Host.makeDirectories_moved`, `Host.enter_moved`).
-/

namespace FpgaFlow

namespace View

variable {v w : View} {p : Path}

section

variable (ht : w.tree = v.tree) (hp : p.isAbsolute = true)

include ht hp

theorem find_of_tree_eq : w.find p = v.find p := by
  rw [find, find, resolve_congr hp ht, ht]

theorem exists_of_tree_eq : w.exists_ p = v.exists_ p := by
  rw [exists_, exists_, find_of_tree_eq ht hp]

theorem isDirectory_of_tree_eq : w.isDirectory p = v.isDirectory p := by
  rw [isDirectory, isDirectory, find_of_tree_eq ht hp]

theorem isFile_of_tree_eq : w.isFile p = v.isFile p := by
  rw [isFile, isFile, find_of_tree_eq ht hp]

theorem read_of_tree_eq : w.read p = v.read p := by
  rw [read, read, find_of_tree_eq ht hp]

theorem readText_of_tree_eq : w.readText p = v.readText p := by
  rw [readText, readText, read_of_tree_eq ht hp]

theorem directoryTarget_of_tree_eq : w.directoryTarget p = v.directoryTarget p := by
  have hparent : w.parentTarget p = v.parentTarget p := by
    rw [parentTarget, parentTarget, start_eq_nil hp, start_eq_nil hp, ht]
  rw [directoryTarget, directoryTarget, hparent, ht]

end

end View

namespace Host

/-- The host with another working directory. -/
def moved (h : Host) (d : Location) : Host :=
  { h with directory := d }

variable (h : Host) (d : Location) {p : Path}

theorem makeDirectory_moved (hp : p.isAbsolute = true) :
    (h.moved d).makeDirectory p = (h.makeDirectory p).map fun made => made.moved d := by
  have htarget : (h.moved d).directoryTarget p = h.directoryTarget p :=
    View.directoryTarget_of_tree_eq rfl hp
  rw [makeDirectory, makeDirectory, htarget]
  cases h.directoryTarget p <;> rfl

/-- **Directories are made at absolute paths from wherever it is.** -/
theorem makeDirectories_moved {ps : List Path} (hps : ∀ p ∈ ps, p.isAbsolute = true) :
    (h.moved d).makeDirectories ps =
      ((h.makeDirectories ps).1.moved d, (h.makeDirectories ps).2) := by
  induction ps generalizing h with
  | nil => rfl
  | cons p ps ih =>
    have hp := hps p List.mem_cons_self
    have hrest := fun q hq => hps q (List.mem_cons_of_mem p hq)
    have hdirectory (g : Host) : (g.moved d).isDirectory p = g.isDirectory p :=
      View.isDirectory_of_tree_eq rfl hp
    rw [makeDirectories, makeDirectories, if_neg (Path.text_ne_empty_of_isAbsolute hp),
      if_neg (Path.text_ne_empty_of_isAbsolute hp), makeDirectory_moved h d hp, hdirectory]
    cases hmake : h.makeDirectory p with
    | ok made => rfl
    | error e =>
      cases e with
      | notFound =>
        simp only [Except.map, ih h hrest]
        cases hbelow : h.makeDirectories ps with
        | mk below r =>
          cases r with
          | error e => rfl
          | ok u =>
            simp only [makeDirectory_moved below d hp, hdirectory]
            cases below.makeDirectory p <;> rfl
      | notADirectory | isADirectory | alreadyExists | invalidData | permissionDenied => rfl

/-- Where a path is entered, it makes no difference where that was done from. -/
theorem enter_moved (hp : p.isAbsolute = true) : (h.moved d).enter p = h.enter p := by
  have hresolve : (h.moved d).toView.resolve p = h.toView.resolve p := View.resolve_congr hp rfl
  rw [enter, enter, View.enter, View.enter, hresolve]
  cases h.toView.resolve p with
  | error e => rfl
  | ok l =>
    have hexpect : View.expectDirectory (h.moved d).tree l = View.expectDirectory h.tree l := rfl
    simp only [bind, Except.bind, hexpect]
    cases View.expectDirectory h.tree l <;> rfl

theorem run_ensureDirectory_moved (hp : p.isAbsolute = true) :
    ExceptT.run (Action.ensureDirectory p) (h.moved d) =
      ((ExceptT.run (Action.ensureDirectory p) h).1,
        (ExceptT.run (Action.ensureDirectory p) h).2.moved d) := by
  have hexists : (h.moved d).exists_ p = h.exists_ p := View.exists_of_tree_eq rfl hp
  have hall : ∀ q ∈ p.ancestors, q.isAbsolute = true := fun q hq => (Path.of_mem_ancestors hq).2 hp
  rw [Action.ensureDirectory, Action.run_change, Action.run_change, hexists,
    makeDirectories_moved h d hall]
  split <;> rfl

end Host

end FpgaFlow
