import ExprLang.Evaluation.Basic
import ExprLang.Parsing.Program

/-!
# Running programs

A program is read and, if there is nothing to report about it, run.
-/

namespace ExprLang

/-- What became of a program. -/
inductive ProgramResult where
  /-- It was not run, for what the report says. -/
  | rejected (report : String)
  /-- It was run. -/
  | finished (value : Value)

namespace Eval

/-- Reads a program and runs it in a scope, unless it has diagnostics, which are reported. -/
def runProgram (limits : Limits) (program : String) (scope : ScopeId) : Eval ProgramResult := do
  match parseWithin limits.parsing program with
  | .error fault => throw fault
  | .ok parsed =>
      match Diagnostic.report? parsed.diagnostics program false with
      | some report => return .rejected report
      | none => return .finished (← evaluateWithin limits.running parsed.tree scope)

end Eval

end ExprLang
