import ExprLang.Diagnostic.Basic
import ExprLang.Fault
import ExprLang.Syntax.Node

/-!
# Reading with one token of lookahead

A parse looks at two tokens at a time, the current one and the one behind it, and never goes back.
What cannot be read is listed as a diagnostic, and the parse goes on; only a fault ends it.
-/

namespace ExprLang

/-- How far a parse has come: the stream from the current token on, and the diagnostics so far. -/
structure ParseState where
  stream : TokenStream
  diagnostics : List Diagnostic := []
deriving Repr

/-- A step of a parse. A fault leaves the state as it was when the fault arose. -/
abbrev Parse := EStateM Fault ParseState

namespace Parse

variable {α : Type}

/-- The current token. -/
def current : Parse Token := do
  return (← get).stream.head

/-- The token behind the current one. -/
def peek : Parse Token := do
  return (← get).stream.tail.head

/-- The number of tokens from the current one to the end of the input. -/
def remaining : Parse Nat := do
  return (← get).stream.pending.length

/-- Goes on to the next token. The levels that it takes to find one are set aside for the whole parse,
by `TokenSource.parseWithin`. -/
def advance : Parse Unit :=
  modify fun s => { s with stream := s.stream.tail }

/-- Lists a diagnostic. -/
def complain (complaint : Complaint) (span : Span) : Parse Unit :=
  modify fun s => { s with diagnostics := s.diagnostics ++ [⟨complaint, span⟩] }

/-- Goes on to the next token if it is of the given kind, and complains about it otherwise. -/
def expectPeek (kind : Kind) : Parse Bool := do
  let next ← peek
  if next.kind = kind then
    advance
    return true
  else
    complain (.unexpectedToken kind next) next.span
    return false

/-- Goes on with a step if the next token is of the given kind, which is passed over. -/
def expecting (kind : Kind) (step : Parse (Option α)) : Parse (Option α) := do
  if ← expectPeek kind then step else return none

/-- The span from a token to the current one. -/
def spanFrom (start : Token) : Parse Span := do
  return start.span.cover (← current).span

/-- Passes over a semicolon behind the current token. -/
def skipSemicolon : Parse Unit := do
  if (← peek).kind = .semicolon then advance

/-- The current token as a name. -/
def currentName : Parse Name := do
  let token ← current
  return ⟨token.text, token.span⟩

end Parse

end ExprLang
