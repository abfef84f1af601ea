import FpgaFlow.Command.Arguments
import FpgaFlow.Proofs.Tree.Growth

/-!
# What stands on a command line

The command is the first argument that is no option (`commandWords`), and the options
after it are read into `Given`.

* `parse_eq_build`: what a command line gives that asks for a build.
* `has_of_readFrom`: a flag without a letter is given when its name stands among the
  arguments.
-/

namespace FpgaFlow.Command

/-! ### Options -/

section

variable {rules : List Rule} {rule : Rule} {given g : Given} {argument name value flag : String}

theorem eq_of_add (h : add rule value given = .ok g) : g = given ++ [(rule.name, value)] := by
  unfold add at h
  split at h
  next => cases h
  next =>
    split at h
    next =>
      split at h
      next => exact (Except.ok.inj h).symm
      next => cases h
    next => exact (Except.ok.inj h).symm
    next => cases h

theorem has_of_add_same (h : add rule value given = .ok g) : has g rule.name = true := by
  rw [eq_of_add h, has, List.lookup_append]
  simp

theorem has_of_add (h : add rule value given = .ok g) (hne : rule.name ≠ name) :
    has g name = has given name := by
  have hname : (name == rule.name) = false := by simpa using Ne.symm hne
  rw [eq_of_add h, has, has, List.lookup_append]
  simp [List.lookup_cons, hname]

theorem eq_of_formOf_long (h : formOf argument = .long name none) : argument = "--" ++ name := by
  unfold formOf at h
  split at h
  next => cases h
  next cs _ heq =>
    split at h
    next => cases h
    next =>
      obtain ⟨rfl, -⟩ := Form.long.inj h
      refine String.toList_inj.1 ?_
      rw [heq, String.toList_append, String.toList_ofList]
      simp
  next => cases h
  next => cases h

/-- A flag that can only be given by its name. -/
structure NamedFlag (rules : List Rule) (flag : String) : Prop where
  form : formOf ("--" ++ flag) = .long flag none
  kind : ∀ r ∈ rules, r.name = flag → r.kind = .flag
  letter : ∀ r ∈ rules, r.name = flag → r.letter = none

theorem ne_of_formOf (hf : NamedFlag rules flag) {form : Form} (h : formOf argument = form)
    (hne : form ≠ .long flag none) : "--" ++ flag ≠ argument := by
  rintro rfl
  exact hne (h.symm.trans hf.form)

/-- Letters give no flag that has none. -/
theorem has_of_readLetters (hf : NamedFlag rules flag) {cs : List Char} {waiting : Option Rule}
    (h : readLetters rules given cs = .ok (g, waiting)) :
    has g flag = has given flag ∧ ∀ r, waiting = some r → r.name ≠ flag := by
  have hother {c : Char} {rule : Rule}
      (hrule : rules.find? (fun r => r.letter = some c) = some rule) : rule.name ≠ flag := by
    intro hname
    have hletter : rule.letter = some c := by simpa using List.find?_some hrule
    rw [hf.letter rule (List.mem_of_find?_eq_some hrule) hname] at hletter
    cases hletter
  fun_induction readLetters rules given cs with
  | case1 given =>
    obtain ⟨rfl, rfl⟩ := Prod.mk.inj (Except.ok.inj h)
    exact ⟨rfl, fun r hr => by cases hr⟩
  | case2 => cases h
  | case3 given c rule hrule _ =>
    obtain ⟨rfl, rfl⟩ := Prod.mk.inj (Except.ok.inj h)
    refine ⟨rfl, fun r hr => ?_⟩
    rw [← Option.some.inj hr]
    exact hother hrule
  | case4 given c rule hrule _ value | case5 given c rule hrule _ value =>
    obtain ⟨g', hadd, hg⟩ := bind_eq_ok_iff.1 h
    obtain ⟨rfl, rfl⟩ := Prod.mk.inj (Except.ok.inj hg)
    exact ⟨has_of_add hadd (hother hrule), fun r hr => by cases hr⟩
  | case6 given c cs rule hrule _ _ _ ih =>
    obtain ⟨g', hadd, hg⟩ := bind_eq_ok_iff.1 h
    obtain ⟨hhas, hwaiting⟩ := ih g' hg
    exact ⟨hhas.trans (has_of_add hadd (hother hrule)), hwaiting⟩

/-- **A flag is given when its name stands among the arguments.** The value of an option is never
taken for one, since no value that stands alone begins with a bar. -/
theorem has_of_readFrom (hf : NamedFlag rules flag) {arguments : List String}
    (h : readFrom rules none given arguments = .ok g) :
    has g flag = true ↔ has given flag = true ∨ "--" ++ flag ∈ arguments := by
  have hvalue {name : String} {rule : Rule} {accepts : String → Bool}
      (hrule : rules.find? (fun r => r.name = name) = some rule)
      (hkind : rule.kind = .value accepts) : rule.name = name ∧ rule.name ≠ flag := by
    refine ⟨by simpa using List.find?_some hrule, fun hname => ?_⟩
    rw [hf.kind rule (List.mem_of_find?_eq_some hrule) hname] at hkind
    cases hkind
  have hplain {v : String} (hv : isValue v = true) : "--" ++ flag ≠ v := by
    rintro rfl
    rw [isValue, hf.form] at hv
    cases hv
  fun_induction readFrom rules none given arguments with
  | case1 given =>
    rw [Except.ok.inj h]
    simp
  | case2 given argument rest hform =>
    have hne := ne_of_formOf hf hform nofun
    cases rest with
    | nil =>
      rw [← Except.ok.inj h]
      simp [hne]
    | cons a rest => cases h
  | case3 => cases h
  | case4 => cases h
  | case5 given argument rest name rule hrule accepts v hkind hform ih =>
    obtain ⟨g', hadd, hg⟩ := bind_eq_ok_iff.1 h
    have hne := ne_of_formOf hf hform nofun
    refine (ih g' hg).trans ?_
    rw [has_of_add hadd (hvalue hrule hkind).2, List.mem_cons]
    simp [hne]
  | case6 given argument name rule hrule accepts hkind v rest hv hform ih =>
    obtain ⟨g', hadd, hg⟩ := bind_eq_ok_iff.1 h
    obtain ⟨hname, hother⟩ := hvalue hrule hkind
    have hne := ne_of_formOf hf hform fun heq => hother (hname.trans (Form.long.inj heq).1)
    refine (ih g' hg).trans ?_
    rw [has_of_add hadd hother, List.mem_cons, List.mem_cons]
    simp [hne, hplain hv]
  | case7 => cases h
  | case8 => cases h
  | case9 => cases h
  | case10 given argument rest name rule hrule _ hform ih =>
    obtain ⟨g', hadd, hg⟩ := bind_eq_ok_iff.1 h
    have hname : rule.name = name := by simpa using List.find?_some hrule
    refine (ih g' hg).trans ?_
    rw [List.mem_cons]
    by_cases hflag : name = flag
    · have hhas := has_of_add_same hadd
      rw [hname, hflag] at hhas
      rw [hflag] at hform
      simp [hhas, eq_of_formOf_long hform]
    · have hne := ne_of_formOf hf hform fun heq => hflag (Form.long.inj heq).1
      rw [has_of_add hadd (by rwa [hname])]
      simp [hne]
  | case11 => cases h
  | case12 given argument rest cs hform given' hletters ih =>
    have hne := ne_of_formOf hf hform nofun
    refine (ih h).trans ?_
    rw [(has_of_readLetters hf hletters).1, List.mem_cons]
    simp [hne]
  | case13 given argument cs hform given' rule hletters v rest hv ih =>
    obtain ⟨g', hadd, hg⟩ := bind_eq_ok_iff.1 h
    obtain ⟨hhas, hother⟩ := has_of_readLetters hf hletters
    have hne := ne_of_formOf hf hform nofun
    refine (ih g' hg).trans ?_
    rw [has_of_add hadd (hother _ rfl), hhas, List.mem_cons, List.mem_cons]
    simp [hne, hplain hv]
  | case14 => cases h
  | case15 => cases h

end

/-! ### Commands -/

/-- The command of a command line with what stands after it. -/
def commandWords (arguments : List String) : List String :=
  arguments.dropWhile fun argument => !isValue argument

/-- The arguments of a build with the options that were given. -/
def buildArguments (given : Given) (installRoot : Option Path) : BuildArguments where
  manifest := path? given "manifest-path"
  mode := given.lookup "mode"
  directory := path? given "build-dir"
  name := given.lookup "build-name"
  installRoot := installRoot
  noSource := has given "no-source"
  noRun := has given "no-run"
  format := format given

variable {environment : Option String} {given : Given} {arguments rest : List String}
  {a : BuildArguments}

theorem parseCommand_eq_build {verbose : Bool} {name : String}
    (h : parseCommand environment verbose name rest = .ok (.build a)) :
    name = "build" ∧ ∃ given root, readFrom buildRules none [] rest = .ok given ∧
      installRoot? environment given = .ok root ∧ a = buildArguments given root := by
  unfold parseCommand at h
  split at h
  next =>
    obtain ⟨given, hgiven, h⟩ := bind_eq_ok_iff.1 h
    obtain ⟨root, hroot, h⟩ := bind_eq_ok_iff.1 h
    exact ⟨rfl, given, root, hgiven, hroot, (Request.build.inj (Except.ok.inj h)).symm⟩
  next =>
    obtain ⟨_, _, h⟩ := bind_eq_ok_iff.1 h
    obtain ⟨_, _, h⟩ := bind_eq_ok_iff.1 h
    cases h
  next =>
    obtain ⟨given, _, h⟩ := bind_eq_ok_iff.1 h
    cases hshell : given.lookup "shell" with
    | none =>
      rw [hshell] at h
      cases h
    | some s =>
      rw [hshell] at h
      cases h
  next =>
    split at h
    next => cases h
    next => cases h
    next => cases h
  next => cases h

/-- Options stand in front of a command. -/
theorem parseFrom_eq_build (h : parseFrom environment given arguments = .ok (.build a)) :
    ∃ rest root given', commandWords arguments = "build" :: rest ∧
      readFrom buildRules none [] rest = .ok given' ∧
      installRoot? environment given' = .ok root ∧ a = buildArguments given' root := by
  fun_induction parseFrom environment given arguments with
  | case1 => cases h
  | case2 => cases h
  | case3 given argument rest hform =>
    obtain ⟨rfl, given', root, hgiven, hroot, ha⟩ := parseCommand_eq_build h
    exact ⟨rest, root, given', rfl, hgiven, hroot, ha⟩
  | case4 given argument rest name rule hrule hform ih =>
    obtain ⟨given', -, h⟩ := bind_eq_ok_iff.1 h
    have hoption : isValue argument = false := by rw [isValue, hform]
    rw [commandWords, List.dropWhile_cons_of_pos (by rw [hoption]; rfl)]
    exact ih given' h
  | case5 => cases h
  | case6 given argument rest cs hform ih =>
    obtain ⟨⟨given', _⟩, -, h⟩ := bind_eq_ok_iff.1 h
    have hoption : isValue argument = false := by rw [isValue, hform]
    rw [commandWords, List.dropWhile_cons_of_pos (by rw [hoption]; rfl)]
    exact ih given' h

theorem parse_eq_build (h : parse environment arguments = .ok (.build a)) :
    ∃ rest root given, commandWords arguments = "build" :: rest ∧
      readFrom buildRules none [] rest = .ok given ∧
      installRoot? environment given = .ok root ∧ a = buildArguments given root :=
  parseFrom_eq_build h

theorem namedFlag_noSource : NamedFlag buildRules "no-source" :=
  ⟨rfl, by simp [buildRules, toolchainRules, commonRules],
    by simp [buildRules, toolchainRules, commonRules]⟩

theorem namedFlag_noRun : NamedFlag buildRules "no-run" :=
  ⟨rfl, by simp [buildRules, toolchainRules, commonRules],
    by simp [buildRules, toolchainRules, commonRules]⟩

end FpgaFlow.Command
