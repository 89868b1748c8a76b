import ExprLang.Token.Basic

/-!
# Lexemes of a line

A line is cut into lexemes from left to right: a comment, the text of a bracket, punctuation mark or
operator, a name, a run of digits, a blank, or one character that is none of these. What stands at a
place is decided by a list of branches, of which the first one that matches is taken. A line feed
belongs to no lexeme and ends a comment.

## Implementation notes

`cut` walks over the characters once. At the first character of a lexeme it looks ahead to find
how many characters follow in the same lexeme, and these are passed over by counting them down.
-/

namespace ExprLang

/-- What a stretch of a line is. -/
inductive LexemeClass where
  /-- A token of a kind that the text decides. -/
  | token (kind : Kind)
  /-- A name, which is a keyword or an identifier. -/
  | name
  /-- A comment. -/
  | comment
  /-- White space inside a line. -/
  | blank
  /-- A line feed. -/
  | lineFeed
deriving DecidableEq, Repr

/-- A stretch of a line, from a column on. -/
structure Lexeme where
  cls : LexemeClass
  column : Nat
  text : List Char
deriving DecidableEq, Repr

namespace Lexeme

/-- The letters of ASCII and the underscore. -/
def isNameStart (c : Char) : Bool :=
  c.isAlpha || c == '_'

/-- The letters and digits of ASCII and the underscore. -/
def isNameChar (c : Char) : Bool :=
  c.isAlphanum || c == '_'

/-- The white space that may stand inside a line. -/
def isSpace (c : Char) : Bool :=
  c ∈ [' ', '\r', '\t', '\x0c', '\x0b']

/-- A branch of the choice between lexemes. -/
inductive Branch where
  /-- The tokens of a kind that all have one text: a character and those behind it. -/
  | fixed (kind : Kind) (c : Char) (behind : List Char)
  /-- Comments, from two slashes to the end of the line. -/
  | comment
  /-- Names. -/
  | name
  /-- Runs of digits. -/
  | digits
  /-- White space, character by character. -/
  | blank
  /-- Any character that may stand in a line. -/
  | illegal
deriving DecidableEq, Repr

namespace Branch

/-- The class of what a branch matches. -/
def cls : Branch → LexemeClass
  | fixed kind _ _ => .token kind
  | comment => .comment
  | name => .name
  | digits => .token .integer
  | blank => .blank
  | illegal => .token .illegal

/-- How many of the characters behind the first one belong to the match of a branch at the head of a
text, if there is a match. -/
def match? (c : Char) (rest : List Char) : Branch → Option Nat
  | fixed _ d behind => if c == d && behind.isPrefixOf rest then some behind.length else none
  | comment =>
      match c, rest with
      | '/', '/' :: text => some (1 + (text.takeWhile (· != '\n')).length)
      | _, _ => none
  | name => if isNameStart c then some (rest.takeWhile isNameChar).length else none
  | digits => if c.isDigit then some (rest.takeWhile Char.isDigit).length else none
  | blank => if isSpace c then some 0 else none
  | illegal => if c == '\n' then none else some 0

end Branch

/-- The branches of comments, brackets, punctuation marks and operators in the order in which they are
tried. A comment comes before a slash, and an operator of two characters before the one that it starts
with. -/
def marks : List Branch :=
  [.fixed .leftParen '(' [], .fixed .rightParen ')' [], .fixed .leftBrace '{' [],
    .fixed .rightBrace '}' [], .fixed .leftBracket '[' [], .fixed .rightBracket ']' [],
    .fixed .semicolon ';' [], .fixed .comma ',' [], .comment, .fixed .plus '+' [],
    .fixed .minus '-' [], .fixed .star '*' [], .fixed .slash '/' [], .fixed .equal '=' ['='],
    .fixed .notEqual '!' ['='], .fixed .atMost '<' ['='], .fixed .atLeast '>' ['='],
    .fixed .less '<' [], .fixed .greater '>' [], .fixed .assign '=' [], .fixed .bang '!' []]

/-- All branches in the order in which they are tried. The last one is for what belongs to no other
lexeme. -/
def branches : List Branch :=
  marks ++ [.name, .digits, .blank, .illegal]

/-- The lexeme that starts with a character, and how many of the characters behind it belong to it:
what the first branch that matches says. None of them matches at a line feed. -/
def first (c : Char) (rest : List Char) : LexemeClass × Nat :=
  (branches.findSome? fun b => (b.match? c rest).map (b.cls, ·)).getD (.lineFeed, 0)

/-- The lexemes of a text from a column on, when its first `skip` characters belong to a lexeme that
started before. -/
def cut (skip column : Nat) : List Char → List Lexeme
  | [] => []
  | c :: rest =>
      match skip with
      | skip + 1 => cut skip (column + 1) rest
      | 0 =>
          let found := first c rest
          ⟨found.1, column, c :: rest.take found.2⟩ :: cut found.2 (column + 1) rest

/-- The lexemes of a line. -/
def ofLine (line : List Char) : List Lexeme :=
  cut 0 0 line

/-- The token of a lexeme on a line; blanks, comments and line feeds give none. -/
def token? (line : Int) (l : Lexeme) : Option Token :=
  let span := Span.onLine line l.column (l.column + l.text.length)
  let text := String.ofList l.text
  match l.cls with
  | .token kind => some ⟨text, kind, span⟩
  | .name => some ⟨text, Kind.ofName text, span⟩
  | .comment | .blank | .lineFeed => none

end Lexeme

end ExprLang
