import FpgaFlow.Proofs.Host.Writing
import FpgaFlow.Proofs.Path.Steps

/-!
# Making directories again

Making the directories of a path ends with a directory at the end of the path, or it
fails.  After a failure the directories that could be made are there, and a second
attempt makes no more of them: the place that stopped the first one is still taken, or
the path leads through it.

**Main statement** `makeDirectories_again`: what fails once fails again, and changes
nothing more.
-/

namespace FpgaFlow

namespace Host

variable {h h' made : Host} {p q : Path} {e : IoError}

/-- A directory cannot be made where one is. -/
theorem makeDirectory_of_isDirectory (hd : h.isDirectory p = true) :
    h.makeDirectory p = .error .alreadyExists := by
  obtain ⟨l, hl, hdirectory⟩ := View.isDirectory_iff.1 hd
  obtain ⟨ht, hwalk, -⟩ := View.resolve_eq_ok_iff.1 hl
  have htarget : h.directoryTarget p = .error .alreadyExists := by
    rw [View.directoryTarget, View.parentTarget, if_neg ht]
    rcases List.eq_nil_or_concat' p.steps with hnil | ⟨way, name, hsteps⟩
    · rw [hnil]
      rfl
    · rw [hsteps, View.walk_append_eq_ok_iff] at hwalk
      obtain ⟨d, hway, hlast⟩ := hwalk
      obtain ⟨hthere, hend⟩ := View.walk_cons_eq_ok_iff.1 hlast
      have hexpect : View.expectDirectory h.tree d = .ok () :=
        View.expectDirectory_eq_ok_iff.2 hthere
      rw [hsteps, List.getLast?_concat, List.dropLast_concat]
      simp only [hway, hexpect, bind, Except.bind, pure, Except.pure]
      by_cases hspecial : name = "." ∨ name = ".."
      · rw [if_pos hspecial]
      · rw [not_or] at hspecial
        rw [View.step, if_neg hspecial.1, if_neg hspecial.2, View.walk_nil,
          Except.ok.injEq] at hend
        rw [if_neg (not_or.2 hspecial)]
        simp only [hend, hdirectory]
  rw [makeDirectory, htarget]
  rfl

theorem isDirectory_of_makeDirectory (hp : p.isAbsolute = true)
    (hmake : h.makeDirectory p = .ok h') : h'.isDirectory p = true := by
  obtain ⟨l, hl, rfl⟩ := makeDirectory_eq_ok_iff.1 hmake
  obtain ⟨d, name, htarget, rfl, -⟩ := View.directoryTarget_eq_ok_iff.1 hl
  have hwalk := View.walk_of_parentTarget htarget
  rw [View.start_eq_nil hp] at hwalk
  have hthere : (h.makeDirectoryAt (d ++ [name])).tree.lookup (d ++ [name]) = some .directory := by
    show (h.tree.put (d ++ [name]) .directory).lookup (d ++ [name]) = _
    rw [FileTree.lookup_put (View.accepts_of_directoryTarget hl), if_pos rfl]
  exact View.isDirectory_of_beginning hp (View.walk_of_grows (grows_makeDirectoryAt hl) hwalk)
    hthere (List.prefix_refl _)

/-- The parent of a directory is one. -/
theorem isDirectory_parent (hp : p.isAbsolute = true) (hparent : p.parent? = some q)
    (hd : h.isDirectory p = true) : h.isDirectory q = true := by
  obtain ⟨l, hl, hdirectory⟩ := View.isDirectory_iff.1 hd
  obtain ⟨-, hwalk, -⟩ := View.resolve_eq_ok_iff.1 hl
  rw [View.start_eq_nil hp] at hwalk
  exact View.isDirectory_of_beginning (Path.isAbsolute_of_parent? hparent hp) hwalk hdirectory
    (Path.steps_parent? hparent)

/-- So is the parent of a directory that can be made. -/
theorem isDirectory_parent_of_makeDirectory (hp : p.isAbsolute = true)
    (hparent : p.parent? = some q) (hmake : h.makeDirectory p = .ok h') :
    h.isDirectory q = true := by
  obtain ⟨l, hl, -⟩ := makeDirectory_eq_ok_iff.1 hmake
  obtain ⟨d, name, htarget, -, -⟩ := View.directoryTarget_eq_ok_iff.1 hl
  obtain ⟨way, hway, hname, hwalk, hd⟩ := View.parentTarget_eq_ok_iff.1 htarget
  have hq := Path.isAbsolute_of_parent? hparent hp
  rw [View.start_eq_nil hp] at hwalk
  exact View.isDirectory_of_beginning hq hwalk hd
    (Path.steps_parent?_of_concat hparent (Path.text_ne_empty_of_isAbsolute hq) hway hname.2.1)

/-- Absolute paths, each the parent of the one before it. -/
inductive Climbs : List Path → Prop
  | single {p : Path} : p.isAbsolute = true → Climbs [p]
  | cons {p q : Path} {ps : List Path} : p.isAbsolute = true → p.parent? = some q →
      Climbs (q :: ps) → Climbs (p :: q :: ps)

theorem ancestorsFrom_eq_cons (n : Nat) (p : Path) :
    ∃ parents, p.ancestorsFrom n = p :: parents := by
  cases n with
  | zero => exact ⟨[], rfl⟩
  | succ n =>
    rw [Path.ancestorsFrom]
    cases p.parent? with
    | none => exact ⟨[], rfl⟩
    | some q => exact ⟨_, rfl⟩

theorem climbs_ancestors (hp : p.isAbsolute = true) : Climbs p.ancestors := by
  have key : ∀ (n : Nat) (p : Path), p.isAbsolute = true → Climbs (p.ancestorsFrom n) := by
    intro n
    induction n with
    | zero => exact fun p hp => .single hp
    | succ n ih =>
      intro p hp
      rw [Path.ancestorsFrom]
      cases hparent : p.parent? with
      | none => exact .single hp
      | some q =>
        have hq := ih q (Path.isAbsolute_of_parent? hparent hp)
        obtain ⟨parents, hcons⟩ := ancestorsFrom_eq_cons n q
        show Climbs (p :: q.ancestorsFrom n)
        rw [hcons] at hq ⊢
        exact .cons hp hparent hq
  exact key _ p hp

/-- What is done with one path: it is made, or its parents are made first, or it cannot be made. -/
theorem makeDirectories_cons (hp : p.isAbsolute = true) (h : Host) (parents : List Path) :
    h.makeDirectories (p :: parents) = match h.makeDirectory p with
      | .ok made => (made, .ok ())
      | .error .notFound => match h.makeDirectories parents with
        | (below, .ok ()) => match below.makeDirectory p with
          | .ok made => (made, .ok ())
          | .error e => (below, if below.isDirectory p then .ok () else .error e)
        | (below, .error e) => (below, .error e)
      | .error e => (h, if h.isDirectory p then .ok () else .error e) := by
  rw [makeDirectories]
  exact if_neg (Path.text_ne_empty_of_isAbsolute hp)

/-- **Making directories ends at a directory.** -/
theorem isDirectory_of_makeDirectories (hp : p.isAbsolute = true) {parents : List Path}
    (hmade : h.makeDirectories (p :: parents) = (made, .ok ())) : made.isDirectory p = true := by
  rw [makeDirectories_cons hp] at hmade
  have hcheck {k : Host} {e : IoError}
      (hk : (k, if k.isDirectory p then Except.ok () else .error e) = (made, .ok ())) :
      made.isDirectory p = true := by
    obtain ⟨rfl, hr⟩ := Prod.mk.inj hk
    by_contra hnot
    rw [if_neg hnot] at hr
    cases hr
  split at hmade
  next made' hmake =>
    obtain ⟨rfl, -⟩ := Prod.mk.inj hmade
    exact isDirectory_of_makeDirectory hp hmake
  next =>
    split at hmade
    next below hbelow =>
      split at hmade
      next made' hmake =>
        obtain ⟨rfl, -⟩ := Prod.mk.inj hmade
        exact isDirectory_of_makeDirectory hp hmake
      next => exact hcheck hmade
    next => cases (Prod.mk.inj hmade).2
  next => exact hcheck hmade

/-- Directories that are there are not made again. -/
theorem makeDirectories_of_isDirectory (hp : p.isAbsolute = true) (hd : h.isDirectory p = true)
    (parents : List Path) : h.makeDirectories (p :: parents) = (h, .ok ()) := by
  rw [makeDirectories_cons hp, makeDirectory_of_isDirectory hd]
  simp only [hd, if_true]

/-- A path is no directory, and making its directories changes nothing. -/
structure Stuck (h : Host) (ps : List Path) : Prop where
  nowhere : ∀ p ∈ ps.head?, h.isDirectory p = false
  fails : ∃ e, h.makeDirectories ps = (h, .error e)

/-- Where a parent is stuck, so is everything below it. -/
theorem Stuck.below (hp : p.isAbsolute = true) (hparent : p.parent? = some q) {ps : List Path}
    (h : made.Stuck (q :: ps)) : made.Stuck (p :: q :: ps) := by
  obtain ⟨e, he⟩ := h.fails
  have hq : made.isDirectory q = false := h.nowhere q rfl
  have hnot : made.isDirectory p = false := by
    rw [Bool.eq_false_iff]
    intro hd
    rw [isDirectory_parent hp hparent hd] at hq
    cases hq
  refine ⟨fun r hr => ?_, ?_⟩
  · obtain rfl := Option.some.inj hr
    exact hnot
  · rw [makeDirectories_cons hp]
    cases hmake : made.makeDirectory p with
    | ok made' =>
      rw [isDirectory_parent_of_makeDirectory hp hparent hmake] at hq
      cases hq
    | error e' =>
      cases e' with
      | notFound =>
        rw [he]
        exact ⟨e, rfl⟩
      | _ =>
        simp only [hnot]
        exact ⟨_, rfl⟩

/-- **Directories that could not be made cannot be made again**, and nothing more is made of
them. -/
theorem makeDirectories_again {ps : List Path} (hps : Climbs ps)
    (hmade : h.makeDirectories ps = (made, .error e)) : made.Stuck ps := by
  have hcheck {k : Host} {p : Path} {e' : IoError}
      (hk : (k, if k.isDirectory p then Except.ok () else .error e') = (made, .error e)) :
      k = made ∧ made.isDirectory p = false := by
    obtain ⟨rfl, hr⟩ := Prod.mk.inj hk
    refine ⟨rfl, ?_⟩
    by_contra hd
    rw [Bool.not_eq_false] at hd
    rw [if_pos hd] at hr
    cases hr
  induction hps generalizing h with
  | @single p hp =>
    have hall := hmade
    rw [makeDirectories_cons hp] at hmade
    have hsame : h = made ∧ made.isDirectory p = false := by
      split at hmade
      next => cases (Prod.mk.inj hmade).2
      next =>
        -- without parents the second try is from the same host
        rw [makeDirectories] at hmade
        dsimp only at hmade
        split at hmade
        next => cases (Prod.mk.inj hmade).2
        next => exact hcheck hmade
      next => exact hcheck hmade
    obtain ⟨rfl, hnot⟩ := hsame
    exact ⟨fun r hr => Option.some.inj hr ▸ hnot, e, hall⟩
  | @cons p q ps hp hparent hps ih =>
    have hq : q.isAbsolute = true := Path.isAbsolute_of_parent? hparent hp
    have hall := hmade
    rw [makeDirectories_cons hp] at hmade
    split at hmade
    next => cases (Prod.mk.inj hmade).2
    next =>
      split at hmade
      next below hbelow =>
        split at hmade
        next => cases (Prod.mk.inj hmade).2
        next e' hmake =>
          obtain ⟨rfl, hnot⟩ := hcheck hmade
          refine ⟨fun r hr => Option.some.inj hr ▸ hnot, ?_⟩
          have hthere := isDirectory_of_makeDirectories hq hbelow
          rw [makeDirectories_cons hp, hmake, makeDirectories_of_isDirectory hq hthere]
          cases e' <;> simp only [hmake, hnot] <;> exact ⟨_, rfl⟩
      next below e' hbelow =>
        obtain ⟨rfl, hsame⟩ := Prod.mk.inj hmade
        obtain rfl := Except.error.inj hsame
        exact (ih hbelow).below hp hparent
    next =>
      obtain ⟨rfl, hnot⟩ := hcheck hmade
      exact ⟨fun r hr => Option.some.inj hr ▸ hnot, e, hall⟩

end Host

end FpgaFlow
