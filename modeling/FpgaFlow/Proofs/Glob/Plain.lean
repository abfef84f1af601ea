import FpgaFlow.Glob.Search
import FpgaFlow.Proofs.Tree.Growth

/-!
# The components of patterns

A pattern for paths is read slash by slash (`PathPattern.parse_eq_ok_iff`), so that no
component without wild cards stands for a name with a slash in it
(`PathPattern.plain_components`).
-/

namespace FpgaFlow.Glob

namespace Pattern

/-- A pattern for one component of a path. -/
def Plain (p : Pattern) : Prop :=
  ∀ name, p.literal? = some name → '/' ∉ name.toList

theorem mem_push {tokens : List Token} {t x : Token} (h : x ∈ push tokens t) :
    x ∈ tokens ∨ x = t := by
  rw [push] at h
  split at h
  next => exact .inl h
  next =>
    rcases List.mem_append.1 h with h | h
    · exact .inl h
    · exact .inr (List.mem_singleton.1 h)

/-- A bracket gives no character, and what follows it is an end of the text. -/
theorem of_bracket? {cs rest : List Char} {t : Token} (h : bracket? cs = some (t, rest)) :
    (∀ c, t ≠ .char c) ∧ rest ⊆ cs := by
  have hcut {s body after : List Char} (h : upToBracket s = some (body, after)) : after ⊆ s := by
    rw [Text.eq_of_cutAt h]
    exact List.subset_append_right _ _
  rw [bracket?.eq_def] at h
  split at h
  next c cs =>
    obtain ⟨⟨body, after⟩, hbody, heq⟩ := Option.map_eq_some_iff.1 h
    obtain ⟨rfl, rfl⟩ := Prod.mk.inj heq
    refine ⟨by simp, fun x hx => ?_⟩
    exact List.mem_cons_of_mem _ (List.mem_cons_of_mem _ (hcut hbody hx))
  next => cases h
  next c cs _ _ =>
    obtain ⟨⟨body, after⟩, hbody, heq⟩ := Option.map_eq_some_iff.1 h
    obtain ⟨rfl, rfl⟩ := Prod.mk.inj heq
    exact ⟨by simp, fun x hx => List.mem_cons_of_mem _ (hcut hbody hx)⟩
  next => cases h

/-- Every character that a pattern stands for is in its text. -/
theorem mem_of_readFrom {n : Nat} {tokens : List Token} {at_ : Nat} {before : Option Char}
    {cs : List Char} {p : Pattern} (h : readFrom n tokens at_ before cs = .ok p) {c : Char}
    (hc : .char c ∈ p.tokens) : .char c ∈ tokens ∨ c ∈ cs := by
  induction n generalizing tokens at_ before cs with
  | zero =>
    rw [readFrom, Except.ok.injEq] at h
    rw [← h] at hc
    exact .inl hc
  | succ n ih =>
    cases cs with
    | nil =>
      rw [readFrom, Except.ok.injEq] at h
      · rw [← h] at hc
        exact .inl hc
    | cons a cs =>
      have hpush {t : Token} {rest : List Char} {k : Nat} {b : Option Char} (ht : ∀ c, t ≠ .char c)
          (hrest : rest ⊆ cs) (h : readFrom n (push tokens t) k b rest = .ok p) :
          .char c ∈ tokens ∨ c ∈ a :: cs := by
        rcases ih h with hmem | hmem
        · rcases mem_push hmem with hmem | hmem
          · exact .inl hmem
          · exact absurd hmem.symm (ht c)
        · exact .inr (List.mem_cons_of_mem a (hrest hmem))
      have hstars : cs.dropWhile (· == '*') ⊆ cs :=
        (List.dropWhile_suffix _).subset
      rw [readFrom] at h
      split at h
      next => exact hpush (by simp) (List.Subset.refl cs) h
      next =>
        split at h
        next =>
          dsimp only at h
          split at h
          next => cases h
          next =>
            split at h
            next =>
              split at h
              next =>
                split at h
                next => exact hpush (by simp) (List.nil_subset cs) h
                next rest hrest =>
                  refine hpush (by simp) (fun x hx => hstars ?_) h
                  rw [hrest]
                  exact List.mem_cons_of_mem _ hx
                next => cases h
              next => cases h
            next => exact hpush (by simp) hstars h
        next =>
          split at h
          next =>
            split at h
            next t rest hbracket =>
              obtain ⟨ht, hrest⟩ := of_bracket? hbracket
              exact hpush ht hrest h
            next => cases h
          next =>
            rcases ih h with hmem | hmem
            · rcases mem_push hmem with hmem | hmem
              · exact .inl hmem
              · obtain rfl := Token.char.inj hmem
                exact .inr List.mem_cons_self
            · exact .inr (List.mem_cons_of_mem a hmem)

theorem mem_of_mem_literalChars? {tokens : List Token} {cs : List Char}
    (h : literalChars? tokens = some cs) {c : Char} (hc : c ∈ cs) : .char c ∈ tokens := by
  induction tokens generalizing cs with
  | nil =>
    obtain rfl := Option.some.inj h
    cases hc
  | cons t rest ih =>
    cases t with
    | char a =>
      obtain ⟨as, has, rfl⟩ := Option.map_eq_some_iff.1 h
      rcases List.mem_cons.1 hc with rfl | hc
      · exact List.mem_cons_self
      · exact List.mem_cons_of_mem _ (ih has hc)
    | anyChar => cases h
    | anySequence => cases h
    | anyRecursive => cases h
    | within sets => cases h
    | except sets => cases h

theorem plain_of_parse {s : List Char} (hs : '/' ∉ s) {p : Pattern} (h : parse s = .ok p) :
    p.Plain := by
  intro name hname hslash
  obtain ⟨cs, hcs, rfl⟩ := Option.map_eq_some_iff.1 hname
  rw [String.toList_ofList] at hslash
  rcases mem_of_readFrom h (mem_of_mem_literalChars? hcs hslash) with hmem | hmem
  · cases hmem
  · exact hs hmem

theorem plain_nil : Plain ⟨[]⟩ := by
  intro name hname
  obtain rfl := Option.some.inj hname
  decide

end Pattern

theorem mem_of_mem_collapse {ps : List Pattern} {p : Pattern} (h : p ∈ collapse ps) : p ∈ ps := by
  fun_induction collapse ps with
  | case1 => exact h
  | case2 => exact h
  | case3 a b rest _ ih => exact List.mem_cons_of_mem a (ih h)
  | case4 a b rest _ ih =>
    rcases List.mem_cons.1 h with rfl | h
    · exact List.mem_cons_self
    · exact List.mem_cons_of_mem a (ih h)

theorem slash_notMem_of_mem_componentTexts {s t : List Char} (h : t ∈ componentTexts s) :
    '/' ∉ t := by
  rw [componentTexts] at h
  split at h
  next => exact Text.notMem_of_mem_splitOn (List.dropLast_subset _ h)
  next => exact Text.notMem_of_mem_splitOn h

theorem exists_of_mem_mapM {α β ε : Type} {f : α → Except ε β} {as : List α} {bs : List β}
    (h : as.mapM f = .ok bs) {b : β} (hb : b ∈ bs) : ∃ a ∈ as, f a = .ok b := by
  induction as generalizing bs with
  | nil =>
    obtain rfl := Except.ok.inj h
    cases hb
  | cons a as ih =>
    rw [List.mapM_cons] at h
    cases ha : f a with
    | error e => simp [ha, bind, Except.bind] at h
    | ok b' =>
      cases has : as.mapM f with
      | error e => simp [ha, has, bind, Except.bind] at h
      | ok bs' =>
        obtain rfl : b' :: bs' = bs := by
          simpa [ha, has, bind, Except.bind, pure, Except.pure] using h
        rcases List.mem_cons.1 hb with rfl | hb
        · exact ⟨a, List.mem_cons_self, ha⟩
        · obtain ⟨a', ha', hf⟩ := ih has hb
          exact ⟨a', List.mem_cons_of_mem a ha', hf⟩

namespace PathPattern

/-- Where a pattern starts, and the rest of its text. -/
def split : List Char → Path × List Char
  | '/' :: rest => (⟨"/"⟩, rest)
  | cs => (⟨"."⟩, cs)

variable {text : String} {p : PathPattern}

theorem parse_eq (text : String) : parse text = do
    let _ ← Pattern.parse text.toList
    let components ← (componentTexts (split text.toList).2).mapM Pattern.parse
    return {
      scope := (split text.toList).1
      components := collapse (if (split text.toList).2.isEmpty then [⟨[]⟩] else components)
      directoriesOnly := text.toList.getLast? == some '/' } := by
  rw [parse]
  cases text.toList with
  | nil => rfl
  | cons c cs =>
    by_cases hc : c = '/'
    · subst hc
      rfl
    · have hsplit : split (c :: cs) = (⟨"."⟩, c :: cs) := by
        simp [split, hc]
      simp [hsplit, hc]

theorem parse_eq_ok_iff : parse text = .ok p ↔
    (∃ whole, Pattern.parse text.toList = .ok whole) ∧
    ∃ components, (componentTexts (split text.toList).2).mapM Pattern.parse = .ok components ∧
      p = {
        scope := (split text.toList).1
        components := collapse (if (split text.toList).2.isEmpty then [⟨[]⟩] else components)
        directoriesOnly := text.toList.getLast? == some '/' } := by
  rw [parse_eq, bind_eq_ok_iff]
  simp only [bind_eq_ok_iff, pure, Except.pure, Except.ok.injEq, eq_comm (b := p)]
  simp

theorem plain_components (h : parse text = .ok p) : ∀ c ∈ p.components, c.Plain := by
  obtain ⟨-, components, hcomponents, rfl⟩ := parse_eq_ok_iff.1 h
  intro c hc
  have hc := mem_of_mem_collapse hc
  split at hc
  next =>
    rw [List.mem_singleton.1 hc]
    exact Pattern.plain_nil
  next =>
    obtain ⟨t, ht, hparse⟩ := exists_of_mem_mapM hcomponents hc
    exact Pattern.plain_of_parse (slash_notMem_of_mem_componentTexts ht) hparse

/-- **A pattern below the root** starts there, and its components are plain. -/
theorem plain_of_parse (habs : (⟨text⟩ : Path).isAbsolute = true) (h : parse text = .ok p) :
    p.scope = ⟨"/"⟩ ∧ ∀ c ∈ p.components, c.Plain := by
  refine ⟨?_, plain_components h⟩
  obtain ⟨rest, hrest⟩ := Path.isAbsolute_eq_true_iff.1 habs
  have htext : text.toList = '/' :: rest := hrest
  obtain ⟨-, components, -, rfl⟩ := parse_eq_ok_iff.1 h
  rw [htext]
  rfl

end PathPattern

end FpgaFlow.Glob
