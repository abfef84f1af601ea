import FpgaFlow.Text

/-!
# Patterns for file names

A pattern is a text with wild cards: `?` stands for one character, `*` for any characters, and
brackets for one character of a set or outside of it. `**` as a whole component of a path stands for
any number of directories. Every other character stands for itself, and case matters.

`Pattern.parse` reads a pattern or says what is wrong with it and where (`PatternError`);
`Pattern.accepts` decides whether a pattern stands for a name.
-/

namespace FpgaFlow.Glob

/-- What can be wrong with a pattern. -/
inductive PatternFault where
  | wildcards
  | recursiveWildcard
  | range
  deriving DecidableEq, Repr

/-- The words for what is wrong with a pattern. -/
def PatternFault.message : PatternFault → String
  | wildcards => "wildcards are either regular `*` or recursive `**`"
  | recursiveWildcard => "recursive wildcards must form a single path component"
  | range => "invalid range pattern"

/-- What is wrong with a pattern, and at which character. -/
structure PatternError where
  position : Nat
  fault : PatternFault
  deriving DecidableEq, Repr

/-- A set of characters: single ones and ranges. -/
inductive CharSet where
  | single (c : Char)
  | range (first last : Char)
  deriving DecidableEq, Repr

/-- Whether a character is in a set. -/
def CharSet.has (c : Char) : CharSet → Bool
  | single d => c == d
  | range first last => first ≤ c && c ≤ last

/-- The sets that stand between brackets. -/
def CharSet.read : List Char → List CharSet
  | a :: '-' :: b :: rest => .range a b :: CharSet.read rest
  | a :: rest => .single a :: CharSet.read rest
  | [] => []

/-- One part of a pattern. -/
inductive Token where
  | char (c : Char)
  | anyChar
  | anySequence
  | anyRecursive
  | within (sets : List CharSet)
  | except (sets : List CharSet)
  deriving DecidableEq, Repr

/-- A pattern. -/
structure Pattern where
  tokens : List Token
  deriving DecidableEq, Repr

namespace Pattern

/-- The characters up to the next closing bracket, and what follows it. -/
def upToBracket : List Char → Option (List Char × List Char) :=
  Text.cutAt [']']

/-- The set that an opening bracket starts, and what follows it. The first character of a set is
never its end. -/
def bracket? : List Char → Option (Token × List Char)
  | '!' :: c :: rest => (upToBracket rest).map fun (body, after) =>
      (.except (CharSet.read (c :: body)), after)
  | '!' :: [] => none
  | c :: rest => (upToBracket rest).map fun (body, after) =>
      (.within (CharSet.read (c :: body)), after)
  | [] => none

/-- Adds a part. A `**` that follows another one adds nothing, unless it is the second part. -/
def push (tokens : List Token) (t : Token) : List Token :=
  if t = .anyRecursive ∧ 1 < tokens.length ∧ tokens.getLast? = some .anyRecursive then tokens
  else tokens ++ [t]

/-- Reads on from a position. `before` is the character in front of it; each step reads at least
one character. -/
def readFrom : Nat → List Token → Nat → Option Char → List Char → Except PatternError Pattern
  | 0, tokens, _, _, _ => .ok ⟨tokens⟩
  | _ + 1, tokens, _, _, [] => .ok ⟨tokens⟩
  | n + 1, tokens, at_, before, c :: cs =>
    if c = '?' then readFrom n (push tokens .anyChar) (at_ + 1) (some c) cs
    else if c = '*' then
      let stars := 1 + (cs.takeWhile (· == '*')).length
      let rest := cs.dropWhile (· == '*')
      if 2 < stars then .error ⟨at_ + 2, .wildcards⟩
      else if stars = 2 then
        if at_ = 0 ∨ before = some '/' then
          match rest with
          | [] => readFrom n (push tokens .anyRecursive) (at_ + 2) (some '*') []
          | '/' :: rest => readFrom n (push tokens .anyRecursive) (at_ + 3) (some '/') rest
          | _ => .error ⟨at_ + 2, .recursiveWildcard⟩
        else .error ⟨at_ - 1, .recursiveWildcard⟩
      else readFrom n (push tokens .anySequence) (at_ + 1) (some '*') rest
    else if c = '[' then
      match bracket? cs with
      | some (token, rest) =>
        readFrom n (push tokens token) (at_ + 1 + (cs.length - rest.length)) (some ']') rest
      | none => .error ⟨at_, .range⟩
    else readFrom n (push tokens (.char c)) (at_ + 1) (some c) cs

/-- The pattern that a text writes. -/
def parse (s : List Char) : Except PatternError Pattern :=
  readFrom s.length [] 0 none s

/-- Whether the pattern is `**`. -/
def isRecursive (p : Pattern) : Bool :=
  p.tokens.contains .anyRecursive

/-- The characters of a list of parts, if it has no wild card. -/
def literalChars? : List Token → Option (List Char)
  | [] => some []
  | .char c :: rest => (literalChars? rest).map (c :: ·)
  | _ :: _ => none

/-- The text of a pattern without wild cards. -/
def literal? (p : Pattern) : Option String :=
  (literalChars? p.tokens).map String.ofList

/-- Whether the pattern begins with a point. -/
def startsWithDot (p : Pattern) : Bool :=
  p.tokens.head? == some (.char '.')

/-- Whether a part stands for a character. -/
def tokenAccepts (c : Char) : Token → Bool
  | .char d => c == d
  | .anyChar => true
  | .within sets => sets.any (CharSet.has c)
  | .except sets => !sets.any (CharSet.has c)
  | .anySequence | .anyRecursive => false

/-- Whether a rest accepts some end of a text. -/
def acceptsSomeEnd (rest : List Char → Bool) : List Char → Bool
  | [] => rest []
  | c :: cs => rest (c :: cs) || acceptsSomeEnd rest cs

/-- Whether parts stand for a text. -/
def tokensAccept : List Token → List Char → Bool
  | [], s => s.isEmpty
  | .anySequence :: rest, s => acceptsSomeEnd (tokensAccept rest) s
  | .anyRecursive :: rest, s => acceptsSomeEnd (tokensAccept rest) s
  | _ :: _, [] => false
  | t :: rest, c :: cs => tokenAccepts c t && tokensAccept rest cs

/-- Whether the pattern stands for a name. -/
def accepts (p : Pattern) (name : String) : Bool :=
  tokensAccept p.tokens name.toList

end Pattern

end FpgaFlow.Glob
