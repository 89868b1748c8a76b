import ExprLang.Parsing.State

/-!
# Reading expressions and statements

Every kind of token that can start an expression has a rule for the operand that it starts, and
every kind that binds with a precedence has a rule for going on from an operand. An expression is
an operand that is extended as long as the next token binds tighter than what stands to the left.

A part that cannot be read is left out, together with the statement that it belongs to; reading
then goes on at the next token.

## Implementation notes

The rules take the readers of nested expressions and statements as arguments, so each rule is
defined once for all depths. `expression` and `statement` tie the knot: both use up one level,
whatever the construct is. Lists and blocks use up none of their own, and neither does going on to the
next token; the notes on limits of nesting say how levels stand for calls. The loops count down the
number of tokens left, of which every round uses up one at least.
-/

namespace ExprLang

namespace Parse

/-- The largest integer literal. -/
def maxInteger : Int := 9223372036854775807

/-- The items of a list, if all of them are present. -/
def allPresent {α : Type} : List (Option α) → Option (List α)
  | [] => some []
  | none :: _ => none
  | some a :: rest => (allPresent rest).map (a :: ·)

/-! ### Literals and names -/

/-- The current token as an identifier. -/
def identifier : Parse (Option Node) := do
  let token ← current
  return some (.identifier token.text token.span)

/-- The current token as an integer literal. -/
def integer : Parse (Option Node) := do
  let token ← current
  match Text.readInt token.text with
  | .error reason => throw (.unreadableInteger reason)
  | .ok value =>
      if maxInteger < value then
        complain (.integerTooLarge token) token.span
        return none
      else
        return some (.integer value token.span)

/-- The current token as a boolean literal. -/
def boolean : Parse (Option Node) := do
  let token ← current
  return some (.boolean (token.kind == .trueWord) token.span)

section Rules

variable (expression : Precedence → Parse (Option Node)) (statement : Parse (Option Node))

/-! ### Lists -/

/-- Expressions that follow, each after a comma. -/
def moreExpressions : (rounds : Nat) → Parse (List (Option Node))
  | 0 => return []
  | rounds + 1 => do
      if (← peek).kind = .comma then
        advance
        advance
        let next ← expression .lowest
        let rest ← moreExpressions rounds
        return next :: rest
      else
        return []

/-- Expressions with commas between them, from the opening bracket to the closing one. -/
def expressionList (closing : Kind) : Parse (Option (List Node)) := do
  if (← peek).kind = closing then
    advance
    return some []
  else
    advance
    let first ← expression .lowest
    let rest ← moreExpressions expression (← remaining)
    expecting closing do
      return allPresent (first :: rest)

/-- Parameters that follow, each after a comma. -/
def moreParameters : (rounds : Nat) → Parse (Option (List Name))
  | 0 => return some []
  | rounds + 1 => do
      if (← peek).kind = .comma then
        advance
        expecting .identifier do
          let name ← currentName
          let rest ← moreParameters rounds
          return rest.map (name :: ·)
      else
        return some []

/-- Parameters with commas between them, from the opening parenthesis to the closing one. -/
def parameters : Parse (Option (List Name)) := do
  if (← peek).kind = .rightParen then
    advance
    return some []
  else
    expecting .identifier do
      let first ← currentName
      match ← moreParameters (← remaining) with
      | none => return none
      | some rest =>
          expecting .rightParen do
            return some (first :: rest)

/-! ### Blocks -/

/-- Statements up to a closing brace or the end of the input. -/
def blockStatements : (rounds : Nat) → Parse (List Node)
  | 0 => return []
  | rounds + 1 => do
      let token ← current
      if token.kind = .rightBrace ∨ token.kind = .endOfInput then
        return []
      else
        let next ← statement
        advance
        let rest ← blockStatements rounds
        return next.toList ++ rest

/-- A block, from its opening brace to its closing brace or the end of the input. -/
def block : Parse Node := do
  let start ← current
  advance
  let statements ← blockStatements statement (← remaining)
  return .block statements (← spanFrom start)

/-! ### Operands -/

/-- A prefix operator and its operand. -/
def unary : Parse (Option Node) := do
  let operator ← current
  advance
  let operand ← expression .unary
  let span ← spanFrom operator
  return operand.map fun e => .unary operator e span

/-- An expression in parentheses. -/
def grouped : Parse (Option Node) := do
  advance
  let inner ← expression .lowest
  expecting .rightParen do
    return inner

/-- A conditional. -/
def conditional : Parse (Option Node) := do
  let start ← current
  expecting .leftParen do
    advance
    let condition ← expression .lowest
    expecting .rightParen do
      expecting .leftBrace do
        let consequence ← block statement
        if (← peek).kind = .elseWord then
          advance
          expecting .leftBrace do
            let alternative ← block statement
            let span ← spanFrom start
            return condition.map fun c => .ifElse c consequence alternative span
        else
          let span ← spanFrom start
          return condition.map fun c => .ifThen c consequence span

/-- A function literal. -/
def functionLiteral : Parse (Option Node) := do
  let start ← current
  expecting .leftParen do
    match ← parameters with
    | none => return none
    | some names =>
        expecting .leftBrace do
          let body ← block statement
          return some (.function names body (← spanFrom start))

/-- An array literal. -/
def arrayLiteral : Parse (Option Node) := do
  let start ← current
  let elements ← expressionList expression .rightBracket
  let span ← spanFrom start
  return elements.map fun es => .array es span

/-- The rule for the operand that a kind of token starts. -/
def operandRule? : Kind → Option (Parse (Option Node))
  | .identifier => some identifier
  | .integer => some integer
  | .trueWord | .falseWord => some boolean
  | .bang | .minus => some (unary expression)
  | .leftParen => some (grouped expression)
  | .ifWord => some (conditional expression statement)
  | .funcWord => some (functionLiteral statement)
  | .leftBracket => some (arrayLiteral expression)
  | _ => none

/-! ### Going on from an operand -/

/-- An infix operator and its right operand, behind the left one. -/
def binary (left : Option Node) : Parse (Option Node) := do
  let operator ← current
  advance
  let right ← expression operator.kind.precedence
  return match left, right with
    | some l, some r => some (.binary l operator r (l.span.cover r.span))
    | _, _ => none

/-- The arguments of a call, behind the function. -/
def call (callee : Option Node) : Parse (Option Node) := do
  let arguments ← expressionList expression .rightParen
  let last ← current
  return match callee, arguments with
    | some f, some es => some (.call f es (f.span.cover last.span))
    | _, _ => none

/-- An index in brackets, behind the array. -/
def index (collection : Option Node) : Parse (Option Node) := do
  advance
  let position ← expression .lowest
  expecting .rightBracket do
    let last ← current
    return match collection, position with
      | some l, some i => some (.index l i (l.span.cover last.span))
      | _, _ => none

/-- Goes on from an operand by the rule of the current token. -/
def extend (left : Option Node) : Parse (Option Node) := do
  match (← current).kind with
  | .leftParen => call expression left
  | .leftBracket => index expression left
  | _ => binary expression left

/-- Goes on from an operand as long as the next token binds tighter than the precedence. -/
def extendWhile (precedence : Precedence) : (rounds : Nat) → Option Node → Parse (Option Node)
  | 0, left => return left
  | rounds + 1, left => do
      if precedence.rank < (← peek).kind.precedence.rank then
        advance
        let extended ← extend expression left
        extendWhile precedence rounds extended
      else
        return left

/-- An expression whose operators all bind tighter than the precedence. -/
def expressionBy (precedence : Precedence) : Parse (Option Node) := do
  let token ← current
  match operandRule? expression statement token.kind with
  | none =>
      complain (.noOperand token) token.span
      return none
  | some rule =>
      let operand ← rule
      extendWhile expression precedence (← remaining) operand

/-! ### Statements -/

/-- A `let` statement. -/
def letStatement : Parse (Option Node) := do
  let start ← current
  expecting .identifier do
    let name ← currentName
    expecting .assign do
      advance
      let value ← expression .lowest
      skipSemicolon
      let span ← spanFrom start
      return value.map fun v => .letBinding name v span

/-- A `return` statement. -/
def returnStatement : Parse (Option Node) := do
  let start ← current
  advance
  let value ← expression .lowest
  skipSemicolon
  let span ← spanFrom start
  return value.map fun v => .returning v span

/-- An expression that stands as a statement. -/
def expressionStatement : Parse (Option Node) := do
  let start ← current
  let value ← expression .lowest
  skipSemicolon
  let span ← spanFrom start
  return value.map fun v => .evaluated v span

/-- A statement of the form that the current token decides. -/
def statementBy : Parse (Option Node) := do
  match (← current).kind with
  | .letWord => letStatement expression
  | .returnWord => returnStatement expression
  | _ => expressionStatement expression

end Rules

/-! ### Nesting -/

mutual

/-- An expression with at most `depth` levels of nested expressions and statements. -/
def expression : (depth : Nat) → Precedence → Parse (Option Node)
  | 0, _ => throw .tooDeep
  | depth + 1, precedence => expressionBy (expression depth) (statement depth) precedence

/-- A statement with at most `depth` levels of nested expressions and statements. -/
def statement : (depth : Nat) → Parse (Option Node)
  | 0 => throw .tooDeep
  | depth + 1 => statementBy (expression depth)

end

end Parse

end ExprLang
