import ExprLang.Text.Line
import ExprLang.Token.Lexeme

/-!
# Tokens of a program

The tokens of a program are those of its lines, one line after the other, with the number of the
line. No character is refused: what belongs to no token becomes an illegal one.
-/

namespace ExprLang

namespace Token

/-- The tokens of a line with the given number. -/
def ofLine (number : Int) (line : List Char) : List Token :=
  (Lexeme.ofLine line).filterMap (Lexeme.token? number)

/-- The tokens of lines that are numbered from `number` on. -/
def ofLines (number : Int) : List (List Char) → List Token
  | [] => []
  | line :: rest => ofLine number line ++ ofLines (number + 1) rest

/-- The tokens of a program, without the end of the input. -/
def ofProgram (program : String) : List Token :=
  ofLines 1 (Text.lines program.toList)

/-- The place of the end of the input: behind the last line, or at the start of the first if there
is none. -/
def endPlace (program : String) : Span :=
  let lines := Text.lines program.toList
  match lines.getLast? with
  | none => Span.onLine 1 0 0
  | some last => Span.onLine lines.length last.length last.length

/-- The end of the input of a program. -/
def endOf (program : String) : Token :=
  ending (endPlace program)

/-- All tokens of a program, the end of the input being the last. -/
def scan (program : String) : List Token :=
  ofProgram program ++ [endOf program]

end Token

/-- The stream of the tokens of a program. -/
def TokenStream.ofProgram (program : String) : TokenStream :=
  ⟨Token.ofProgram program, Token.endPlace program⟩

end ExprLang
