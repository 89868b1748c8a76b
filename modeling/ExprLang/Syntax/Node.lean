import ExprLang.Token.Basic

/-!
# Syntax trees

A program is a tree of nodes: statements, blocks of statements and expressions. Every node knows
the span that it was read from, and an operator is kept as the token that it was written with.

## Implementation notes

There is one type of nodes, and any node may stand at any place: trees can also be made by hand,
and a statement as an operand is run like any other operand. Which trees the grammar allows is a
property of trees. The two forms of a conditional, with and without an alternative, are two
constructors.
-/

namespace ExprLang

/-- A name that is bound, by a `let` or as a parameter. -/
structure Name where
  text : String
  span : Span := Span.nowhere
deriving DecidableEq, Repr, Inhabited

/-- A name without its place. -/
def Name.unplaced (n : Name) : Name :=
  { n with span := Span.nowhere }

/-- Whether two names read the same, wherever they stand. -/
def Name.sameAs (a b : Name) : Bool :=
  a.text == b.text

/-- A node of a syntax tree. -/
inductive Node where
  /-- A whole program. -/
  | program (statements : List Node) (span : Span)
  /-- Statements in braces. -/
  | block (statements : List Node) (span : Span)
  /-- The binding of a name to a value. -/
  | letBinding (name : Name) (value : Node) (span : Span)
  /-- The return from the enclosing function or program. -/
  | returning (value : Node) (span : Span)
  /-- An expression that stands as a statement. -/
  | evaluated (expression : Node) (span : Span)
  /-- A name that is looked up. -/
  | identifier (name : String) (span : Span)
  /-- An integer literal. -/
  | integer (value : Int) (span : Span)
  /-- A boolean literal. -/
  | boolean (value : Bool) (span : Span)
  /-- An array literal. -/
  | array (elements : List Node) (span : Span)
  /-- A prefix operator and its operand. -/
  | unary (operator : Token) (operand : Node) (span : Span)
  /-- An infix operator between its operands. -/
  | binary (left : Node) (operator : Token) (right : Node) (span : Span)
  /-- A conditional without an alternative. -/
  | ifThen (condition consequence : Node) (span : Span)
  /-- A conditional with an alternative. -/
  | ifElse (condition consequence alternative : Node) (span : Span)
  /-- A function literal. -/
  | function (parameters : List Name) (body : Node) (span : Span)
  /-- The call of a function. -/
  | call (callee : Node) (arguments : List Node) (span : Span)
  /-- The element of an array at an index. -/
  | index (collection position : Node) (span : Span)
  /-- A node without content, which has no value. -/
  | placeholder (span : Span)
deriving Inhabited

namespace Node

/-- The span that a node was read from. -/
def span : Node → Span
  | .program _ s | .block _ s | .letBinding _ _ s | .returning _ s | .evaluated _ s
  | .identifier _ s | .integer _ s | .boolean _ s | .array _ s | .unary _ _ s
  | .binary _ _ _ s | .ifThen _ _ s | .ifElse _ _ _ s | .function _ _ s | .call _ _ s
  | .index _ _ s | .placeholder s => s

/-- Whether a node is an expression that stands as a statement. -/
def isEvaluated : Node → Bool
  | .evaluated _ _ => true
  | _ => false

/-- Whether a node is an operator with its operands, or an index. -/
def isOperation : Node → Bool
  | .unary .. | .binary .. | .index .. => true
  | _ => false

/-! ### Trees without places -/

mutual

/-- The tree without any place. -/
def unplaced : Node → Node
  | .program ss _ => .program (unplacedAll ss) Span.nowhere
  | .block ss _ => .block (unplacedAll ss) Span.nowhere
  | .letBinding n v _ => .letBinding n.unplaced v.unplaced Span.nowhere
  | .returning v _ => .returning v.unplaced Span.nowhere
  | .evaluated e _ => .evaluated e.unplaced Span.nowhere
  | .identifier n _ => .identifier n Span.nowhere
  | .integer v _ => .integer v Span.nowhere
  | .boolean v _ => .boolean v Span.nowhere
  | .array es _ => .array (unplacedAll es) Span.nowhere
  | .unary o e _ => .unary o.unplaced e.unplaced Span.nowhere
  | .binary l o r _ => .binary l.unplaced o.unplaced r.unplaced Span.nowhere
  | .ifThen c t _ => .ifThen c.unplaced t.unplaced Span.nowhere
  | .ifElse c t e _ => .ifElse c.unplaced t.unplaced e.unplaced Span.nowhere
  | .function ps b _ => .function (ps.map Name.unplaced) b.unplaced Span.nowhere
  | .call f es _ => .call f.unplaced (unplacedAll es) Span.nowhere
  | .index l i _ => .index l.unplaced i.unplaced Span.nowhere
  | .placeholder _ => .placeholder Span.nowhere

/-- The trees of a list without any place. -/
def unplacedAll : List Node → List Node
  | [] => []
  | n :: rest => n.unplaced :: unplacedAll rest

end

/-- Whether two lists of names read the same. -/
def sameNames : List Name → List Name → Bool
  | [], [] => true
  | a :: as, b :: bs => a.sameAs b && sameNames as bs
  | _, _ => false

mutual

/-- Whether two trees are equal apart from places. -/
def sameAs : Node → Node → Bool
  | .program a _, .program b _ => sameAll a b
  | .block a _, .block b _ => sameAll a b
  | .letBinding n v _, .letBinding n' v' _ => n.sameAs n' && sameAs v v'
  | .returning v _, .returning v' _ => sameAs v v'
  | .evaluated e _, .evaluated e' _ => sameAs e e'
  | .identifier n _, .identifier n' _ => n == n'
  | .integer v _, .integer v' _ => v == v'
  | .boolean v _, .boolean v' _ => v == v'
  | .array a _, .array b _ => sameAll a b
  | .unary o e _, .unary o' e' _ => o.sameAs o' && sameAs e e'
  | .binary l o r _, .binary l' o' r' _ => sameAs l l' && o.sameAs o' && sameAs r r'
  | .ifThen c t _, .ifThen c' t' _ => sameAs c c' && sameAs t t'
  | .ifElse c t e _, .ifElse c' t' e' _ => sameAs c c' && sameAs t t' && sameAs e e'
  | .function ps b _, .function ps' b' _ => sameNames ps ps' && sameAs b b'
  | .call f a _, .call f' a' _ => sameAs f f' && sameAll a a'
  | .index l i _, .index l' i' _ => sameAs l l' && sameAs i i'
  | .placeholder _, .placeholder _ => true
  | _, _ => false

/-- Whether two lists of trees are equal apart from places. -/
def sameAll : List Node → List Node → Bool
  | [], [] => true
  | a :: as, b :: bs => sameAs a b && sameAll as bs
  | _, _ => false

end

/-! ### Height -/

mutual

/-- The number of levels of a tree. -/
def height : Node → Nat
  | .program ss _ | .block ss _ => heightAll ss + 1
  | .letBinding _ v _ => v.height + 1
  | .returning v _ => v.height + 1
  | .evaluated e _ => e.height + 1
  | .identifier .. | .integer .. | .boolean .. | .placeholder .. => 1
  | .array es _ => heightAll es + 1
  | .unary _ e _ => e.height + 1
  | .binary l _ r _ => max l.height r.height + 1
  | .ifThen c t _ => max c.height t.height + 1
  | .ifElse c t e _ => max c.height (max t.height e.height) + 1
  | .function _ b _ => b.height + 1
  | .call f es _ => max f.height (heightAll es) + 1
  | .index l i _ => max l.height i.height + 1

/-- The height of the highest tree of a list. -/
def heightAll : List Node → Nat
  | [] => 0
  | n :: rest => max n.height (heightAll rest)

end

end Node

end ExprLang
