import ExprLang.Diagnostic.Excerpt
import ExprLang.Text.Quoted
import ExprLang.Token.Basic

/-!
# Diagnostics

A diagnostic says why a part of a program could not be read, and where. A report shows the first
ten diagnostics of a program with the lines around them, and counts the others.
-/

namespace ExprLang

/-- Why a part of a program could not be read. -/
inductive Complaint where
  /-- Another kind of token was required. -/
  | unexpectedToken (expected : Kind) (got : Token)
  /-- No expression starts with the token. -/
  | noOperand (token : Token)
  /-- An integer literal is beyond the largest integer. -/
  | integerTooLarge (token : Token)
  /-- The program is nested too deeply. -/
  | nestedTooDeep
deriving DecidableEq, Repr

/-- The wording of a complaint. -/
def Complaint.message : Complaint → String
  | .unexpectedToken expected got =>
      "expected next token to be " ++ expected.describe ++ ", got " ++ got.kind.describe ++
        " instead"
  | .noOperand token => "no prefix parse function for " ++ token.kind.describe ++ " found"
  | .integerTooLarge token => "could not parse " ++ Text.quoted token.text ++ " as integer"
  | .nestedTooDeep => "maximum nesting depth exceeded"

/-- A complaint about a span of a program. -/
structure Diagnostic where
  complaint : Complaint
  span : Span
deriving DecidableEq, Repr

namespace Diagnostic

/-- The wording of a diagnostic. -/
def message (d : Diagnostic) : String :=
  d.complaint.message

/-- What is said below the excerpt: which token was expected, and where. -/
def advice (d : Diagnostic) : String :=
  match d.complaint with
  | .unexpectedToken expected got =>
      "Expected " ++ expected.describeWithArticle ++
        (if got.kind = .endOfInput then ""
          else ", but got " ++ Text.quoted got.text ++ " instead") ++
        " on " ++ d.span.describeLines ++ " column " ++ toString d.span.startColumn ++ "."
  | _ => ""

/-- The diagnostic with the lines around it. -/
def detailed (d : Diagnostic) (program : String) (colour : Bool) : String :=
  Notice.render
    { heading := "SyntaxError"
      lead := d.message
      trailer := d.advice
      mark := Mark.redIf colour }
    program d.span

/-- The most diagnostics that a report shows. -/
def maxReported : Nat := 10

/-- How a report ends that leaves diagnostics out. -/
def omissionNote (omitted : Nat) : String :=
  if omitted = 0 then ""
  else
    "\n\nShowing " ++ toString maxReported ++ " errors, omitting " ++ toString omitted ++ " error" ++
      (if 1 < omitted then "s" else "") ++ "..."

/-- The report of the diagnostics of a program, if there are any. -/
def report? (ds : List Diagnostic) (program : String) (colour : Bool) : Option String :=
  if ds.isEmpty then none
  else
    some (String.join ((ds.take maxReported).map fun d => "\n\n" ++ d.detailed program colour) ++
      omissionNote (ds.length - maxReported))

end Diagnostic

end ExprLang
