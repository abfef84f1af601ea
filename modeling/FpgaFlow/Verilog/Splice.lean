import FpgaFlow.Text

/-!
# Splicing items into the top module

Items are put into a Verilog text in front of the word `endmodule` that follows the first `module
top` standing by itself, that is, without a character of an identifier directly before or after it.
-/

namespace FpgaFlow.Verilog

/-- The characters of identifiers. -/
def isIdent (c : Char) : Bool :=
  c.isAlphanum || c == '_' || c == '$'

/-- Whether a text goes on with a character of an identifier. -/
def goesOn (s : List Char) : Bool :=
  s.head?.any isIdent

/-- The text up to and with the first `module top` that stands by itself, and the rest. `joined`
says whether a character of an identifier stands before the text. -/
def cutAfterTop (joined : Bool) : List Char → Option (List Char × List Char)
  | [] => none
  | c :: cs =>
    let word := "module top".toList
    if word.isPrefixOf (c :: cs) && !joined && !goesOn ((c :: cs).drop word.length) then
      some (word, (c :: cs).drop word.length)
    else (cutAfterTop (isIdent c) cs).map fun (before, after) => (c :: before, after)

/-- The text cut in two in front of the word that closes the top module. -/
def cutAtTopEnd (s : List Char) : Option (List Char × List Char) := do
  let (before, after) ← cutAfterTop false s
  let (body, rest) ← Text.cutAt "endmodule".toList after
  return (before ++ body, "endmodule".toList ++ rest)

/-- The text with the items in front of the word that closes the top module. -/
def splice? (items text : String) : Option String :=
  (cutAtTopEnd text.toList).map fun (before, after) =>
    String.ofList (before ++ items.toList ++ after)

end FpgaFlow.Verilog
