import FpgaFlow.Verilog.Splice
import Mathlib.Data.List.Infix
import Mathlib.Data.List.TakeWhile

/-!
# The lexemes of a Verilog text

A text is read from left to right, each lexeme as long as possible: words (identifiers,
keywords and numbers), blanks, comments of both forms, strings, escaped identifiers, and
single characters otherwise (`lexemes`).  A comment, a string or an escaped identifier is
one lexeme, whatever stands in it.

* `text_lexemes`: nothing is lost.
* `exists_split`: what is left of the lexemes behind some of them are the lexemes of what is
  left of the text.
* `exists_lexeme_of_run`: **a run of characters of identifiers lies within one lexeme.**  In a
  comment or a string this is so for blanks too (`Begins.closed`).
-/

namespace FpgaFlow.Verilog

/-! ### Reading one lexeme -/

inductive Kind where
  | word
  | blank
  | comment
  | literal
  | escaped
  | symbol
  deriving DecidableEq, Repr

structure Lexeme where
  kind : Kind
  text : List Char
  deriving DecidableEq, Repr

/-- White space. -/
def isBlank (c : Char) : Bool :=
  c.isWhitespace || c == '\x0c'

/-- The rest of a comment, up to its end or the end of the text. -/
def commentRest (s : List Char) : List Char :=
  match Text.cutAt ['*', '/'] s with
  | some (before, _) => before ++ ['*', '/']
  | none => s

/-- The rest of a string, up to the quote that ends it or the end of the text. -/
def literalRest : List Char → List Char
  | [] => []
  | '"' :: _ => ['"']
  | '\\' :: c :: cs => '\\' :: c :: literalRest cs
  | c :: cs => c :: literalRest cs

/-- The lexeme that a text begins with. -/
def headLexeme (c : Char) (cs : List Char) : Lexeme :=
  if isIdent c then ⟨.word, c :: cs.takeWhile isIdent⟩
  else if isBlank c then ⟨.blank, c :: cs.takeWhile isBlank⟩
  else match c, cs with
    | '/', '/' :: rest => ⟨.comment, '/' :: '/' :: rest.takeWhile (· != '\n')⟩
    | '/', '*' :: rest => ⟨.comment, '/' :: '*' :: commentRest rest⟩
    | '"', rest => ⟨.literal, '"' :: literalRest rest⟩
    | '\\', rest => ⟨.escaped, '\\' :: rest.takeWhile fun c => !isBlank c⟩
    | c, _ => ⟨.symbol, [c]⟩

/-- The lexemes of a text of which the first `skip` characters are read already. -/
def lexemesFrom : Nat → List Char → List Lexeme
  | _, [] => []
  | skip + 1, _ :: cs => lexemesFrom skip cs
  | 0, c :: cs => headLexeme c cs :: lexemesFrom ((headLexeme c cs).text.length - 1) cs

/-- The lexemes of a text. -/
def lexemes (s : List Char) : List Lexeme :=
  lexemesFrom 0 s

/-- What stands in some lexemes. -/
def textOf (ls : List Lexeme) : List Char :=
  ls.flatMap Lexeme.text

@[simp] theorem textOf_nil : textOf [] = [] := rfl

@[simp] theorem textOf_cons (l : Lexeme) (ls : List Lexeme) :
    textOf (l :: ls) = l.text ++ textOf ls := rfl

@[simp] theorem textOf_append (ls ms : List Lexeme) :
    textOf (ls ++ ms) = textOf ls ++ textOf ms :=
  List.flatMap_append

/-! ### What a lexeme is -/

/-- What can stand in a lexeme that is no comment or string. -/
def Lexeme.Proper (l : Lexeme) : Prop :=
  match l.kind with
  | .word => ∀ c ∈ l.text, isIdent c = true
  | .blank => ∀ c ∈ l.text, isBlank c = true
  | .escaped => ∀ c ∈ l.text, isBlank c = false
  | .symbol => l.text.length = 1
  | .comment | .literal => True

/-- No run of characters goes on from one text into the other. -/
def Parted (p : Char → Bool) (text rest : List Char) : Prop :=
  text.getLast?.any p = true → rest.head?.any p = false

section Parted

variable {p q : Char → Bool} {text rest : List Char}

theorem parted_of_getLast? (h : ∀ c ∈ text.getLast?, p c = false) : Parted p text rest := by
  intro hlast
  obtain ⟨c, hc, hp⟩ := (Option.any_eq_true _ _).1 hlast
  rw [h c hc] at hp
  cases hp

theorem parted_concat (front : List Char) {c : Char} (hc : p c = false) :
    Parted p (front ++ [c]) rest :=
  parted_of_getLast? fun d hd => by
    rw [List.getLast?_concat, Option.mem_some_iff] at hd
    rwa [← hd]

theorem parted_dropWhile (hpq : ∀ c, q c = false → p c = false) (text s : List Char) :
    Parted p text (s.dropWhile q) := by
  intro _
  cases h : (s.dropWhile q).head? with
  | none => rfl
  | some c =>
    have hc := List.head?_dropWhile_not q s
    rw [h] at hc
    exact hpq c (by simpa using hc)

theorem Parted.mono (h : Parted q text rest) (hpq : ∀ c, q c = false → p c = false) :
    Parted p text rest := by
  have himp (c : Char) (hc : p c = true) : q c = true := by
    by_contra hq
    rw [hpq c (by simpa using hq)] at hc
    cases hc
  intro hlast
  obtain ⟨c, hc, hp⟩ := (Option.any_eq_true _ _).1 hlast
  have hhead := h ((Option.any_eq_true _ _).2 ⟨c, hc, himp c hp⟩)
  cases hrest : rest.head? with
  | none => rfl
  | some d =>
    rw [hrest] at hhead
    exact hpq d hhead

/-- A run that starts in a text does not go on behind it. -/
theorem Parted.exists_of_run (h : Parted p text rest) {x m r y : List Char} (htext : text = x ++ m)
    (hm : m ≠ []) (hr : ∀ c ∈ r, p c = true) (hrun : m ++ rest = r ++ y) :
    ∃ w, m = r ++ w ∧ y = w ++ rest := by
  rcases List.append_eq_append_iff.1 hrun with ⟨r', rfl, hrest⟩ | ⟨w, rfl, hy⟩
  · cases r' with
    | nil => exact ⟨[], by simp, hrest.symm⟩
    | cons c cs =>
      have hlast : text.getLast?.any p = true := by
        rw [htext, List.getLast?_append_of_ne_nil _ hm, List.getLast?_eq_some_getLast hm]
        exact hr _ (List.mem_append_left _ (List.getLast_mem hm))
      have hhead := h hlast
      have hc : p c = true := hr c (by simp)
      rw [hrest, List.cons_append, List.head?_cons, Option.any_some, hc] at hhead
      cases hhead
  · exact ⟨w, rfl, hy⟩

end Parted

/-- The characters of identifiers and the blank. -/
def inWords (c : Char) : Bool :=
  isIdent c || c == ' '

/-- A lexeme stands before the rest of a text.  No identifier goes on from the one into the
other, and a comment or a string does not end among words. -/
structure Begins (l : Lexeme) (rest : List Char) : Prop where
  ne_nil : l.text ≠ []
  proper : l.Proper
  parted : Parted isIdent l.text rest
  closed : l.kind = .comment ∨ l.kind = .literal → Parted inWords l.text rest

/-- A comment or a string stands before the rest of a text if it does not end among words. -/
theorem begins_of_closed {l : Lexeme} {rest : List Char} (hne : l.text ≠ [])
    (hkind : l.kind = .comment ∨ l.kind = .literal) (h : Parted inWords l.text rest) :
    Begins l rest where
  ne_nil := hne
  proper := by
    rw [Lexeme.Proper]
    rcases hkind with hkind | hkind <;> rw [hkind] <;> trivial
  parted := h.mono fun c hc => (Bool.or_eq_false_iff.1 hc).1
  closed _ := h

theorem isIdent_eq_false_of_isBlank {c : Char} (h : isBlank c = true) : isIdent c = false := by
  simp only [isBlank, Char.isWhitespace, Bool.or_eq_true, decide_eq_true_eq, beq_iff_eq] at h
  rcases h with (((rfl | rfl) | rfl) | rfl) | rfl <;> decide

/-- A comment ends with its mark, or with the text. -/
theorem exists_commentRest (s : List Char) : ∃ rest, s = commentRest s ++ rest ∧
    ((∃ front, commentRest s = front ++ ['/']) ∨ rest = []) := by
  rw [commentRest]
  split
  next before after h =>
    exact ⟨after, Text.eq_of_cutAt h, .inl ⟨before ++ ['*'], by simp⟩⟩
  · exact ⟨[], (List.append_nil s).symm, .inr rfl⟩

/-- A string ends with a quote, or with the text. -/
theorem exists_literalRest (s : List Char) : ∃ rest, s = literalRest s ++ rest ∧
    ((∃ front, literalRest s = front ++ ['"']) ∨ rest = []) := by
  fun_induction literalRest s with
  | case1 => exact ⟨[], rfl, .inr rfl⟩
  | case2 cs => exact ⟨cs, rfl, .inl ⟨[], rfl⟩⟩
  | case3 c cs ih =>
    obtain ⟨rest, hs, hends⟩ := ih
    refine ⟨rest, congrArg ('\\' :: c :: ·) hs, hends.imp_left ?_⟩
    rintro ⟨front, h⟩
    exact ⟨'\\' :: c :: front, congrArg ('\\' :: c :: ·) h⟩
  | case4 c cs _ _ ih =>
    obtain ⟨rest, hs, hends⟩ := ih
    refine ⟨rest, congrArg (c :: ·) hs, hends.imp_left ?_⟩
    rintro ⟨front, h⟩
    exact ⟨c :: front, congrArg (c :: ·) h⟩

/-- The text splits into its first lexeme and the rest. -/
theorem exists_headLexeme (c : Char) (cs : List Char) :
    ∃ rest, c :: cs = (headLexeme c cs).text ++ rest ∧ Begins (headLexeme c cs) rest := by
  fun_cases headLexeme c cs
  case case1 hc =>
    refine ⟨cs.dropWhile isIdent, by simp, List.cons_ne_nil _ _, ?_, ?_, by simp⟩
    · exact List.forall_mem_cons.2 ⟨hc, fun d hd => List.mem_takeWhile_imp hd⟩
    · exact parted_dropWhile (fun _ => id) _ cs
  case case2 hc =>
    have hblank : ∀ d ∈ c :: cs.takeWhile isBlank, isBlank d = true :=
      List.forall_mem_cons.2 ⟨hc, fun d hd => List.mem_takeWhile_imp hd⟩
    refine ⟨cs.dropWhile isBlank, by simp, List.cons_ne_nil _ _, hblank, ?_, by simp⟩
    exact parted_of_getLast? fun d hd =>
      isIdent_eq_false_of_isBlank (hblank d (List.mem_of_getLast? hd))
  case case3 rest _ _ =>
    refine ⟨rest.dropWhile (· != '\n'), by simp,
      begins_of_closed (List.cons_ne_nil _ _) (.inl rfl) ?_⟩
    exact parted_dropWhile (fun c hc => by rw [bne_eq_false_iff_eq.1 hc]; decide) _ rest
  case case4 rest _ _ =>
    obtain ⟨rest', hrest, hends⟩ := exists_commentRest rest
    refine ⟨rest', by simp [← hrest], begins_of_closed (List.cons_ne_nil _ _) (.inl rfl) ?_⟩
    rcases hends with ⟨front, hfront⟩ | rfl
    · rw [hfront]
      exact parted_concat ('/' :: '*' :: front) (by decide)
    · exact fun _ => rfl
  case case5 =>
    obtain ⟨rest', hrest, hends⟩ := exists_literalRest cs
    refine ⟨rest', by simp [← hrest], begins_of_closed (List.cons_ne_nil _ _) (.inr rfl) ?_⟩
    rcases hends with ⟨front, hfront⟩ | rfl
    · rw [hfront]
      exact parted_concat ('"' :: front) (by decide)
    · exact fun _ => rfl
  case case6 =>
    refine ⟨cs.dropWhile fun c => !isBlank c, by simp, List.cons_ne_nil _ _, ?_, ?_, by simp⟩
    · exact List.forall_mem_cons.2 ⟨by decide, fun d hd => by simpa using List.mem_takeWhile_imp hd⟩
    · exact parted_dropWhile (fun c hc => isIdent_eq_false_of_isBlank (by simpa using hc)) _ cs
  case case7 _ _ hc _ _ _ =>
    exact ⟨cs, rfl, List.cons_ne_nil _ _, rfl, parted_concat [] (by simpa using hc), by simp⟩

/-! ### Reading all of them -/

theorem lexemesFrom_eq (k : Nat) (s : List Char) : lexemesFrom k s = lexemes (s.drop k) := by
  induction s generalizing k with
  | nil => simp [lexemes, lexemesFrom]
  | cons c cs ih =>
    cases k with
    | zero => rfl
    | succ k => exact ih k

/-- The lexemes of a text are its first one and those of the rest. -/
theorem exists_lexemes_cons {s : List Char} (hs : s ≠ []) :
    ∃ l rest, s = l.text ++ rest ∧ Begins l rest ∧ lexemes s = l :: lexemes rest := by
  cases s with
  | nil => exact absurd rfl hs
  | cons c cs =>
    obtain ⟨rest, hrest, hbegins⟩ := exists_headLexeme c cs
    refine ⟨_, rest, hrest, hbegins, ?_⟩
    have hdrop : cs.drop ((headLexeme c cs).text.length - 1) = rest := by
      obtain ⟨d, ds, htext⟩ := List.exists_cons_of_ne_nil hbegins.ne_nil
      rw [htext] at hrest ⊢
      rw [(List.cons.inj hrest).2]
      exact List.drop_left
    rw [← hdrop, ← lexemesFrom_eq]
    rfl

@[simp] theorem lexemes_nil : lexemes [] = [] := rfl

/-- **Nothing is lost.** -/
theorem text_lexemes (s : List Char) : textOf (lexemes s) = s := by
  induction hn : s.length using Nat.strongRecOn generalizing s with
  | ind n ih =>
    by_cases hs : s = []
    · rw [hs]
      rfl
    · obtain ⟨l, rest, rfl, hbegins, hlexemes⟩ := exists_lexemes_cons hs
      have hpos := List.length_pos_iff.2 hbegins.ne_nil
      rw [List.length_append] at hn
      rw [hlexemes, textOf_cons, ih rest.length (by omega) rest rfl]

/-- Behind some of the lexemes are the lexemes of the rest of the text. -/
theorem exists_split {s : List Char} {xs ys : List Lexeme} (h : lexemes s = xs ++ ys) :
    ∃ rest, s = textOf xs ++ rest ∧ lexemes rest = ys ∧ Parted isIdent (textOf xs) rest := by
  induction xs generalizing s with
  | nil => exact ⟨s, rfl, h, parted_of_getLast? (by simp)⟩
  | cons x xs ih =>
    have hs : s ≠ [] := by
      rintro rfl
      cases h
    obtain ⟨l, rest, rfl, hbegins, hlexemes⟩ := exists_lexemes_cons hs
    rw [hlexemes] at h
    obtain ⟨rfl, htail⟩ := List.cons.inj h
    obtain ⟨rest', rfl, hrest', hparted⟩ := ih htail
    refine ⟨rest', by rw [textOf_cons, List.append_assoc], hrest', ?_⟩
    rw [Parted, textOf_cons]
    by_cases hnil : textOf xs = []
    · simpa [hnil, Parted] using hbegins.parted
    · rwa [List.getLast?_append_of_ne_nil _ hnil]

/-- **A run of characters of identifiers lies within one lexeme.** -/
theorem exists_lexeme_of_run {s x r y : List Char} (hs : s = x ++ (r ++ y)) (hne : r ≠ [])
    (hr : ∀ c ∈ r, isIdent c = true) : ∃ xs l u w rest,
      lexemes s = xs ++ l :: lexemes rest ∧ Begins l rest ∧
      x = textOf xs ++ u ∧ l.text = u ++ (r ++ w) ∧ y = w ++ rest := by
  induction hn : s.length using Nat.strongRecOn generalizing s x with
  | ind n ih =>
    have hfilled : s ≠ [] := by
      rw [hs]
      simp [hne]
    obtain ⟨l, rest, hsplit, hbegins, hlexemes⟩ := exists_lexemes_cons hfilled
    have hpos := List.length_pos_iff.2 hbegins.ne_nil
    rw [hs] at hsplit
    by_cases hle : l.text.length ≤ x.length
    · obtain ⟨m, rfl⟩ := List.prefix_of_prefix_length_le (List.prefix_append l.text rest)
        (hsplit ▸ List.prefix_append x (r ++ y)) hle
      rw [List.append_assoc] at hsplit hs
      have hrest := List.append_cancel_left hsplit
      obtain ⟨xs, l', u, w, rest', hsome, hbegins', rfl, htext, hy⟩ :=
        ih rest.length (by simp [← hn, hs, ← hrest]; omega) hrest.symm rfl
      exact ⟨l :: xs, l', u, w, rest', by rw [hlexemes, hsome, List.cons_append], hbegins',
        by rw [textOf_cons, List.append_assoc], htext, hy⟩
    · obtain ⟨m, htext⟩ := List.prefix_of_prefix_length_le (List.prefix_append x (r ++ y))
        (hsplit ▸ List.prefix_append l.text rest) (by omega)
      have hm : m ≠ [] := by
        rintro rfl
        simp [← htext] at hle
      rw [← htext, List.append_assoc] at hsplit
      obtain ⟨w, rfl, hy⟩ := hbegins.parted.exists_of_run htext.symm hm hr
        (List.append_cancel_left hsplit).symm
      exact ⟨[], l, x, w, rest, hlexemes, hbegins, rfl, htext.symm, hy⟩

end FpgaFlow.Verilog
