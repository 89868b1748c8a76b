/-!
# Kinds of tokens

Brackets, punctuation, operators and keywords have one text each; identifiers, integers, illegal
characters and the end of the input are named by a description. Operators and the brackets that
may follow an operand bind with a precedence.
-/

namespace ExprLang

/-- How tightly an operator binds its operands. -/
inductive Precedence where
  | lowest
  | equality
  | comparison
  | sum
  | product
  | unary
  | call
deriving DecidableEq, Repr, Inhabited

/-- The rank of a precedence; a higher one binds tighter. -/
def Precedence.rank : Precedence → Nat
  | .lowest => 1
  | .equality => 2
  | .comparison => 3
  | .sum => 4
  | .product => 5
  | .unary => 6
  | .call => 7

/-- What a token is. -/
inductive Kind where
  | leftParen
  | rightParen
  | leftBrace
  | rightBrace
  | leftBracket
  | rightBracket
  | semicolon
  | comma
  | plus
  | minus
  | star
  | slash
  | equal
  | notEqual
  | atMost
  | atLeast
  | less
  | greater
  | assign
  | bang
  | funcWord
  | letWord
  | trueWord
  | falseWord
  | ifWord
  | elseWord
  | returnWord
  | identifier
  | integer
  | illegal
  | endOfInput
deriving DecidableEq, Repr, Inhabited

namespace Kind

/-- The text of a kind, or its description if its tokens have no fixed text. -/
def text : Kind → String
  | .leftParen => "("
  | .rightParen => ")"
  | .leftBrace => "\x7b"
  | .rightBrace => "\x7d"
  | .leftBracket => "["
  | .rightBracket => "]"
  | .semicolon => ";"
  | .comma => ","
  | .plus => "+"
  | .minus => "-"
  | .star => "*"
  | .slash => "/"
  | .equal => "=="
  | .notEqual => "!="
  | .atMost => "<="
  | .atLeast => ">="
  | .less => "<"
  | .greater => ">"
  | .assign => "="
  | .bang => "!"
  | .funcWord => "func"
  | .letWord => "let"
  | .trueWord => "true"
  | .falseWord => "false"
  | .ifWord => "if"
  | .elseWord => "else"
  | .returnWord => "return"
  | .identifier => "identifier"
  | .integer => "integer"
  | .illegal => "illegal"
  | .endOfInput => "end of input"

/-- Whether all tokens of the kind have one text. -/
def hasFixedText : Kind → Bool
  | .identifier | .integer | .illegal | .endOfInput => false
  | _ => true

/-- The kind as messages name it: a fixed text stands in quotes. -/
def describe (k : Kind) : String :=
  if k.hasFixedText then "'" ++ k.text ++ "'" else k.text

/-- The kind with its indefinite article. -/
def describeWithArticle (k : Kind) : String :=
  match k with
  | .illegal | .ifWord | .elseWord | .identifier | .integer | .endOfInput => "an " ++ k.describe
  | _ => "a " ++ k.describe

/-- The keywords. -/
def keywords : List Kind :=
  [.funcWord, .letWord, .trueWord, .falseWord, .ifWord, .elseWord, .returnWord]

/-- The kind of a text in the form of a name: a keyword or an identifier. -/
def ofName (name : String) : Kind :=
  (keywords.find? fun k => k.text == name).getD .identifier

/-- The precedence of a token that can continue an expression. -/
def precedence? : Kind → Option Precedence
  | .equal | .notEqual => some .equality
  | .less | .greater | .atMost | .atLeast => some .comparison
  | .plus | .minus => some .sum
  | .star | .slash => some .product
  | .leftParen | .leftBracket => some .call
  | _ => none

/-- The precedence of a token; one that cannot continue an expression binds least. -/
def precedence (k : Kind) : Precedence :=
  k.precedence?.getD .lowest

end Kind

end ExprLang
