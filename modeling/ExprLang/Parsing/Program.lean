import ExprLang.Limits
import ExprLang.Parsing.Expression
import ExprLang.Token.Scan

/-!
# Reading programs

A program is read statement by statement up to the end of the input. Where the nesting limit is
reached the parse stops with a last diagnostic, as nothing tells where the nesting ends. The tokens
come from a program or from a list. To find the next one in a program takes up levels itself, so a
program reaches the limit with less nesting than the list of its tokens does.
-/

namespace ExprLang

namespace Parse

/-- A statement, or none with a diagnostic if it is nested too deeply. -/
def guarded (statement : Parse (Option Node)) : Parse (Option (Option Node)) := fun s =>
  match statement s with
  | .ok result s' => .ok (some result) s'
  | .error .tooDeep s' =>
      match complain .nestedTooDeep s'.stream.head.span s' with
      | .ok _ s'' => .ok none s''
      | .error fault s'' => .error fault s''
  | .error fault s' => .error fault s'

/-- Statements up to the end of the input, or up to one that is nested too deeply. -/
def programStatements (statement : Parse (Option Node)) : (rounds : Nat) → Parse (List Node)
  | 0 => return []
  | rounds + 1 => do
      if (← current).kind = .endOfInput then
        return []
      else
        match ← guarded statement with
        | none => return []
        | some next =>
            advance
            let rest ← programStatements statement rounds
            return next.toList ++ rest

/-- A program whose statements have at most `depth` levels. -/
def program (depth : Nat) : Parse Node := do
  let start ← current
  let statements ← programStatements (statement depth) (← remaining)
  return .program statements (← spanFrom start)

end Parse

/-- A program that was read: its tree, without the statements that could not be read, and the
diagnostics in order. -/
structure Parsed where
  tree : Node
  diagnostics : List Diagnostic

/-- Reads a stream of tokens with at most `depth` levels. -/
def TokenStream.parseWithin (depth : Nat) (stream : TokenStream) : Except Fault Parsed :=
  match Parse.program depth { stream } with
  | .ok tree s => .ok ⟨tree, s.diagnostics⟩
  | .error fault _ => .error fault

/-- Reads a program with at most `depth` levels. -/
def parseWithin (depth : Nat) (program : String) : Except Fault Parsed :=
  (TokenStream.ofProgram program).parseWithin depth

/-- What a parse takes its tokens from. -/
inductive TokenSource where
  /-- A program, in which the next token is found when it is asked for. -/
  | program (text : String)
  /-- Tokens that are there already. The end of the input may be the last of them. -/
  | tokens (tokens : List Token)

namespace TokenSource

/-- The tokens of a source. -/
def stream : TokenSource → TokenStream
  | program text => .ofProgram text
  | tokens ts => { pending := ts }

/-- The levels that are used up when a source is asked for a token. -/
def pullLevels : TokenSource → Nat
  | program _ => scanLevels
  | tokens _ => 0

/-- Reads a source with at most `limit` levels, of which a part is left for asking for tokens. -/
def parseWithin (limit : Nat) (source : TokenSource) : Except Fault Parsed :=
  source.stream.parseWithin (limit - source.pullLevels)

/-- Reads a source. -/
def parse (source : TokenSource) : Except Fault Parsed :=
  source.parseWithin parsingLimit

end TokenSource

/-- Reads a program. -/
def parse (program : String) : Except Fault Parsed :=
  (TokenSource.program program).parse

end ExprLang
