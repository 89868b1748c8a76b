import ExprLang.Proofs.Grammar.Grouping
import ExprLang.Proofs.Text.Numeral

/-!
# The grammar of programs

The grammar derives trees from tokens. `Derives n ts rest t` says that the tokens `ts` start with a
phrase of the form `n`, that its tree is `t`, and that the tokens `rest` follow it. A program is a
list of statements with nothing behind it.

## Implementation notes

Two rules look beyond their own tokens, which is why a derivation knows what follows: a statement
without a semicolon must not be followed by a token that would continue it, and a block may lack its
closing brace at the end of the input. Trees are without places.
-/

namespace ExprLang

namespace Grammar

/-- The kind of the first one of some tokens, or the end of the input if there is none. -/
def leading : List Token → Kind
  | [] => .endOfInput
  | t :: _ => t.kind

@[simp] theorem leading_nil : leading [] = .endOfInput := rfl

@[simp] theorem leading_cons (t : Token) (rest : List Token) : leading (t :: rest) = t.kind := rfl

/-- The forms of phrases. -/
inductive Phrase where
  /-- Statements one after the other. -/
  | statements
  /-- A statement with its semicolon, if it has one. -/
  | statement
  /-- A statement without its semicolon. -/
  | unended
  /-- Statements in braces. -/
  | block
  /-- Operands with operators between them. -/
  | expression
  /-- Operators, each with the operand behind it. -/
  | chain
  /-- A primary expression with prefix operators before it and suffixes behind it. -/
  | operand
  /-- A primary expression with suffixes behind it. -/
  | suffixed
  /-- A literal, a name, or what starts with a bracket or a keyword. -/
  | primary
  /-- Expressions with commas between them, up to a closing bracket. -/
  | list (closing : Kind)
  /-- Expressions, each with a comma before it. -/
  | more
  /-- Parameters with commas between them, up to a closing parenthesis. -/
  | parameters
  /-- Parameters, each with a comma before it. -/
  | moreParameters
deriving DecidableEq, Repr

/-- What is read off a phrase. -/
abbrev Phrase.Tree : Phrase → Type
  | .statements | .list _ | .more => List Node
  | .chain => List (Token × Node)
  | .parameters | .moreParameters => List Name
  | _ => Node

/-- A name without its place. -/
def nameOf (t : Token) : Name :=
  ⟨t.text, Span.nowhere⟩

/-- The derivations of trees from tokens. -/
inductive Derives : (n : Phrase) → List Token → List Token → n.Tree → Prop where
  /-- `statements`: nothing. -/
  | noStatement {ts : List Token} : Derives .statements ts ts []
  /-- `statements`: `statement statements`. -/
  | statements {ts us vs : List Token} {n : Node} {ns : List Node}
      (h : Derives .statement ts us n) (hs : Derives .statements us vs ns) :
      Derives .statements ts vs (n :: ns)
  /-- `statement`: `unended ';'`. -/
  | ended {ts us : List Token} {semicolon : Token} {n : Node}
      (h : Derives .unended ts (semicolon :: us) n) (hk : semicolon.kind = .semicolon) :
      Derives .statement ts us n
  /-- `statement`: `unended`, unless `(`, `[` or `-` follows. -/
  | unended {ts us : List Token} {n : Node} (h : Derives .unended ts us n)
      (hf : leading us ∉ [.leftParen, .leftBracket, .minus]) : Derives .statement ts us n
  /-- `unended`: `'let' identifier '=' expression`. -/
  | letBinding {word name assign : Token} {ts us : List Token} {value : Node}
      (hw : word.kind = .letWord) (hn : name.kind = .identifier) (ha : assign.kind = .assign)
      (hv : Derives .expression ts us value) :
      Derives .unended (word :: name :: assign :: ts) us
        (.letBinding (nameOf name) value Span.nowhere)
  /-- `unended`: `'return' expression`. -/
  | returning {word : Token} {ts us : List Token} {value : Node} (hw : word.kind = .returnWord)
      (hv : Derives .expression ts us value) :
      Derives .unended (word :: ts) us (.returning value Span.nowhere)
  /-- `unended`: `expression`. -/
  | evaluated {ts us : List Token} {e : Node} (he : Derives .expression ts us e) :
      Derives .unended ts us (.evaluated e Span.nowhere)
  /-- `block`: `'{' statements '}'`. -/
  | closedBlock {opening closing : Token} {ts us : List Token} {ns : List Node}
      (ho : opening.kind = .leftBrace) (hs : Derives .statements ts (closing :: us) ns)
      (hc : closing.kind = .rightBrace) :
      Derives .block (opening :: ts) us (.block ns Span.nowhere)
  /-- `block`: `'{' statements` at the end of the input. -/
  | openBlock {opening : Token} {ts : List Token} {ns : List Node}
      (ho : opening.kind = .leftBrace) (hs : Derives .statements ts [] ns) :
      Derives .block (opening :: ts) [] (.block ns Span.nowhere)
  /-- `expression`: `operand chain`, grouped by precedence. -/
  | expression {ts us vs : List Token} {first e : Node} {rest : List (Token × Node)}
      (hf : Derives .operand ts us first) (hr : Derives .chain us vs rest)
      (hg : Grouped Token.rank first rest e) : Derives .expression ts vs e
  /-- `chain`: nothing. -/
  | noOperator {ts : List Token} : Derives .chain ts ts []
  /-- `chain`: `operator operand chain`. -/
  | chain {operator : Token} {ts us vs : List Token} {operand : Node}
      {rest : List (Token × Node)} (hk : operator.kind.isBinary = true)
      (ho : Derives .operand ts us operand) (hr : Derives .chain us vs rest) :
      Derives .chain (operator :: ts) vs ((operator, operand) :: rest)
  /-- `operand`: `'!' operand` or `'-' operand`. -/
  | unary {operator : Token} {ts us : List Token} {operand : Node}
      (hk : operator.kind.isUnary = true) (ho : Derives .operand ts us operand) :
      Derives .operand (operator :: ts) us (.unary operator operand Span.nowhere)
  /-- `operand`: `suffixed`. -/
  | suffixed {ts us : List Token} {e : Node} (h : Derives .suffixed ts us e) :
      Derives .operand ts us e
  /-- `suffixed`: `primary`. -/
  | primary {ts us : List Token} {e : Node} (h : Derives .primary ts us e) :
      Derives .suffixed ts us e
  /-- `suffixed`: `suffixed '(' list of expressions ')'`. -/
  | call {opening : Token} {ts us vs : List Token} {callee : Node} {arguments : List Node}
      (hf : Derives .suffixed ts (opening :: us) callee) (ho : opening.kind = .leftParen)
      (ha : Derives (.list .rightParen) us vs arguments) :
      Derives .suffixed ts vs (.call callee arguments Span.nowhere)
  /-- `suffixed`: `suffixed '[' expression ']'`. -/
  | index {opening closing : Token} {ts us vs : List Token} {collection position : Node}
      (hl : Derives .suffixed ts (opening :: us) collection) (ho : opening.kind = .leftBracket)
      (hi : Derives .expression us (closing :: vs) position) (hc : closing.kind = .rightBracket) :
      Derives .suffixed ts vs (.index collection position Span.nowhere)
  /-- `primary`: an identifier. -/
  | identifier {t : Token} {ts : List Token} (hk : t.kind = .identifier) :
      Derives .primary (t :: ts) ts (.identifier t.text Span.nowhere)
  /-- `primary`: an integer in digits that is at most `2 ^ 63 - 1`. -/
  | integer {t : Token} {ts : List Token} (hk : t.kind = .integer)
      (ht : Text.isNumeral t.text = true) (hv : Text.decimal t.text ≤ 9223372036854775807) :
      Derives .primary (t :: ts) ts (.integer (Text.decimal t.text) Span.nowhere)
  /-- `primary`: `'true'` or `'false'`. -/
  | boolean {t : Token} {ts : List Token} (hk : t.kind = .trueWord ∨ t.kind = .falseWord) :
      Derives .primary (t :: ts) ts (.boolean (t.kind == .trueWord) Span.nowhere)
  /-- `primary`: `'(' expression ')'`. -/
  | grouped {opening closing : Token} {ts us : List Token} {e : Node}
      (ho : opening.kind = .leftParen) (he : Derives .expression ts (closing :: us) e)
      (hc : closing.kind = .rightParen) : Derives .primary (opening :: ts) us e
  /-- `primary`: `'[' list of expressions ']'`. -/
  | array {opening : Token} {ts us : List Token} {elements : List Node}
      (ho : opening.kind = .leftBracket) (he : Derives (.list .rightBracket) ts us elements) :
      Derives .primary (opening :: ts) us (.array elements Span.nowhere)
  /-- `primary`: `'if' '(' expression ')' block`. -/
  | ifThen {word opening closing : Token} {ts us vs : List Token} {condition consequence : Node}
      (hw : word.kind = .ifWord) (ho : opening.kind = .leftParen)
      (hc : Derives .expression ts (closing :: us) condition) (hk : closing.kind = .rightParen)
      (ht : Derives .block us vs consequence) :
      Derives .primary (word :: opening :: ts) vs (.ifThen condition consequence Span.nowhere)
  /-- `primary`: `'if' '(' expression ')' block 'else' block`. -/
  | ifElse {word opening closing otherwise : Token} {ts us vs ws : List Token}
      {condition consequence alternative : Node}
      (hw : word.kind = .ifWord) (ho : opening.kind = .leftParen)
      (hc : Derives .expression ts (closing :: us) condition) (hk : closing.kind = .rightParen)
      (ht : Derives .block us (otherwise :: vs) consequence) (he : otherwise.kind = .elseWord)
      (hf : Derives .block vs ws alternative) :
      Derives .primary (word :: opening :: ts) ws
        (.ifElse condition consequence alternative Span.nowhere)
  /-- `primary`: `'func' '(' parameters ')' block`. -/
  | function {word opening : Token} {ts us vs : List Token} {names : List Name} {body : Node}
      (hw : word.kind = .funcWord) (ho : opening.kind = .leftParen)
      (hp : Derives .parameters ts us names) (hb : Derives .block us vs body) :
      Derives .primary (word :: opening :: ts) vs (.function names body Span.nowhere)
  /-- `list`: the closing bracket. -/
  | emptyList {closing : Token} {k : Kind} {ts : List Token} (hc : closing.kind = k) :
      Derives (.list k) (closing :: ts) ts []
  /-- `list`: `expression more` and the closing bracket. -/
  | list {closing : Token} {k : Kind} {ts us vs : List Token} {e : Node} {es : List Node}
      (he : Derives .expression ts us e) (hm : Derives .more us (closing :: vs) es)
      (hc : closing.kind = k) : Derives (.list k) ts vs (e :: es)
  /-- `more`: nothing. -/
  | noMore {ts : List Token} : Derives .more ts ts []
  /-- `more`: `',' expression more`. -/
  | more {comma : Token} {ts us vs : List Token} {e : Node} {es : List Node}
      (hk : comma.kind = .comma) (he : Derives .expression ts us e)
      (hm : Derives .more us vs es) : Derives .more (comma :: ts) vs (e :: es)
  /-- `parameters`: `')'`. -/
  | noParameters {closing : Token} {ts : List Token} (hc : closing.kind = .rightParen) :
      Derives .parameters (closing :: ts) ts []
  /-- `parameters`: `identifier moreParameters ')'`. -/
  | parameters {name closing : Token} {ts us : List Token} {names : List Name}
      (hn : name.kind = .identifier) (hm : Derives .moreParameters ts (closing :: us) names)
      (hc : closing.kind = .rightParen) :
      Derives .parameters (name :: ts) us (nameOf name :: names)
  /-- `moreParameters`: nothing. -/
  | noMoreParameters {ts : List Token} : Derives .moreParameters ts ts []
  /-- `moreParameters`: `',' identifier moreParameters`. -/
  | moreParameters {comma name : Token} {ts us : List Token} {names : List Name}
      (hk : comma.kind = .comma) (hn : name.kind = .identifier)
      (hm : Derives .moreParameters ts us names) :
      Derives .moreParameters (comma :: name :: ts) us (nameOf name :: names)

/-- Tokens that make up a program with the given statements. -/
def Program (ts : List Token) (statements : List Node) : Prop :=
  Derives .statements ts [] statements

/-! ### First tokens -/

/-- The kinds that an operand starts with. -/
def startsOperand : Kind → Bool
  | .identifier | .integer | .trueWord | .falseWord | .bang | .minus | .leftParen | .ifWord
  | .funcWord | .leftBracket => true
  | _ => false

/-- The kinds that a statement starts with. -/
def startsStatement (k : Kind) : Bool :=
  startsOperand k || k == .letWord || k == .returnWord

/-- What is known of the first token of a phrase. -/
def Starts : (n : Phrase) → List Token → List Token → Prop
  | .statements, ts, us => ts = us ∨ startsStatement (leading ts) = true
  | .statement, ts, _ | .unended, ts, _ => startsStatement (leading ts) = true
  | .expression, ts, _ | .operand, ts, _ | .suffixed, ts, _ | .primary, ts, _ =>
      startsOperand (leading ts) = true
  | .chain, ts, us => ts = us ∨ (leading ts).isBinary = true
  | .more, ts, us | .moreParameters, ts, us => ts = us ∨ leading ts = .comma
  | .block, _, _ | .list _, _, _ | .parameters, _, _ => True

theorem Derives.starts {n : Phrase} {ts us : List Token} {t : n.Tree} (h : Derives n ts us t) :
    Starts n ts us := by
  induction h with
  | noStatement | noOperator | noMore | noMoreParameters => exact Or.inl rfl
  | statements h hs ih _ => exact Or.inr ih
  | ended h hk ih => exact ih
  | unended h hf ih => exact ih
  | letBinding hw hn ha hv _ => simp [Starts, startsStatement, hw]
  | returning hw hv _ => simp [Starts, startsStatement, hw]
  | evaluated he ih => simp only [Starts, startsStatement] at ih ⊢; simp [ih]
  | closedBlock | openBlock | emptyList | list | noParameters | parameters => exact True.intro
  | expression hf hr hg ih _ => exact ih
  | chain hk ho hr _ _ => exact Or.inr hk
  | @unary operator ts us operand hk ho _ =>
      simp only [Starts, leading_cons]
      revert hk
      cases operator.kind <;> simp [Kind.isUnary, startsOperand]
  | suffixed h ih => exact ih
  | primary h ih => exact ih
  | call hf ho ha ih _ => exact ih
  | index hl ho hi hc ih _ => exact ih
  | identifier hk => simp [Starts, startsOperand, hk]
  | integer hk ht hv => simp [Starts, startsOperand, hk]
  | boolean hk => rcases hk with hk | hk <;> simp [Starts, startsOperand, hk]
  | grouped ho he hc _ => simp [Starts, startsOperand, ho]
  | array ho he _ => simp [Starts, startsOperand, ho]
  | ifThen hw ho hc hk ht _ _ => simp [Starts, startsOperand, hw]
  | ifElse hw ho hc hk ht he hf _ _ _ => simp [Starts, startsOperand, hw]
  | function hw ho hp hb _ _ => simp [Starts, startsOperand, hw]
  | more hk he hm _ _ => exact Or.inr hk
  | moreParameters hk hn hm _ => exact Or.inr hk

end Grammar

end ExprLang
