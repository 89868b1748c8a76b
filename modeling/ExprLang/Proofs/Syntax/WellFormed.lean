import ExprLang.Syntax.Node
import ExprLang.Token.Lexeme

/-!
# Trees that the grammar allows

A well-formed tree has statements where statements belong and expressions where expressions belong;
its names can be written as identifiers, its integers as literals, and its operators stand in it as
the tokens that they are written with.
-/

namespace ExprLang

/-- The kinds of the prefix operators. -/
def Kind.isUnary : Kind → Bool
  | .bang | .minus => true
  | _ => false

/-- The kinds of the operators between two operands. -/
def Kind.isBinary : Kind → Bool
  | .plus | .minus | .star | .slash | .equal | .notEqual | .less | .greater | .atMost
  | .atLeast => true
  | _ => false

theorem Precedence.rank_pos (p : Precedence) : 1 ≤ p.rank := by
  cases p <;> decide

/-- An operator binds less than a prefix operator. -/
theorem Kind.rank_of_isBinary {k : Kind} (h : k.isBinary = true) :
    2 ≤ k.precedence.rank ∧ k.precedence.rank ≤ 5 := by
  revert h
  cases k <;> simp [Kind.isBinary, Kind.precedence, Kind.precedence?, Precedence.rank]

/-- A token that binds tighter than some precedence is an operator or an opening bracket. -/
theorem Kind.isBinary_of_lt_rank {k : Kind} {p : Precedence} (h : p.rank < k.precedence.rank)
    (hp : k ≠ .leftParen) (hb : k ≠ .leftBracket) : k.isBinary = true := by
  have hr := p.rank_pos
  cases k <;> simp_all [Kind.isBinary, Kind.precedence, Kind.precedence?, Precedence.rank]

/-- A token of the given kind with the text of that kind, at no place. -/
def Kind.token (k : Kind) : Token :=
  ⟨k.text, k, Span.nowhere⟩

/-- Whether a text is a letter or an underscore with letters, digits and underscores behind it. -/
def Text.isName (text : String) : Bool :=
  match text.toList with
  | [] => false
  | c :: rest => Lexeme.isNameStart c && rest.all Lexeme.isNameChar

/-- Whether a text is a name that is no keyword. -/
def Text.isIdentifier (text : String) : Bool :=
  Text.isName text && !(Kind.keywords.map Kind.text).contains text

namespace Token

/-- A prefix operator with its own text. -/
def IsUnary (t : Token) : Prop :=
  t.kind.isUnary = true ∧ t.text = t.kind.text

/-- An infix operator with its own text. -/
def IsBinary (t : Token) : Prop :=
  t.kind.isBinary = true ∧ t.text = t.kind.text

end Token

namespace Node

/-- The places of a tree that a node can stand at. -/
inductive Role where
  | program
  | block
  | statement
  | expression
deriving DecidableEq, Repr

/-- A tree that the grammar allows at a place. Integers reach up to `2 ^ 63 - 1`. -/
inductive WellFormed : Role → Node → Prop where
  | program {statements : List Node} {span : Span}
      (hs : ∀ n ∈ statements, WellFormed .statement n) :
      WellFormed .program (.program statements span)
  | block {statements : List Node} {span : Span}
      (hs : ∀ n ∈ statements, WellFormed .statement n) :
      WellFormed .block (.block statements span)
  | letBinding {name : Name} {value : Node} {span : Span}
      (hn : Text.isIdentifier name.text = true) (hv : WellFormed .expression value) :
      WellFormed .statement (.letBinding name value span)
  | returning {value : Node} {span : Span} (hv : WellFormed .expression value) :
      WellFormed .statement (.returning value span)
  | evaluated {expression : Node} {span : Span} (he : WellFormed .expression expression) :
      WellFormed .statement (.evaluated expression span)
  | identifier {name : String} {span : Span} (hn : Text.isIdentifier name = true) :
      WellFormed .expression (.identifier name span)
  | integer {value : Int} {span : Span} (h₀ : 0 ≤ value) (h₁ : value ≤ 9223372036854775807) :
      WellFormed .expression (.integer value span)
  | boolean {value : Bool} {span : Span} : WellFormed .expression (.boolean value span)
  | array {elements : List Node} {span : Span}
      (he : ∀ n ∈ elements, WellFormed .expression n) :
      WellFormed .expression (.array elements span)
  | unary {operator : Token} {operand : Node} {span : Span} (ho : operator.IsUnary)
      (he : WellFormed .expression operand) :
      WellFormed .expression (.unary operator operand span)
  | binary {left : Node} {operator : Token} {right : Node} {span : Span}
      (hl : WellFormed .expression left) (ho : operator.IsBinary)
      (hr : WellFormed .expression right) :
      WellFormed .expression (.binary left operator right span)
  | ifThen {condition consequence : Node} {span : Span} (hc : WellFormed .expression condition)
      (ht : WellFormed .block consequence) :
      WellFormed .expression (.ifThen condition consequence span)
  | ifElse {condition consequence alternative : Node} {span : Span}
      (hc : WellFormed .expression condition) (ht : WellFormed .block consequence)
      (hf : WellFormed .block alternative) :
      WellFormed .expression (.ifElse condition consequence alternative span)
  | function {parameters : List Name} {body : Node} {span : Span}
      (hp : ∀ p ∈ parameters, Text.isIdentifier p.text = true) (hb : WellFormed .block body) :
      WellFormed .expression (.function parameters body span)
  | call {callee : Node} {arguments : List Node} {span : Span}
      (hc : WellFormed .expression callee) (ha : ∀ n ∈ arguments, WellFormed .expression n) :
      WellFormed .expression (.call callee arguments span)
  | index {collection position : Node} {span : Span} (hc : WellFormed .expression collection)
      (hp : WellFormed .expression position) :
      WellFormed .expression (.index collection position span)

end Node

end ExprLang
