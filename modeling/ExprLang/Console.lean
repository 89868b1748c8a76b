import ExprLang.Evaluation.Basic
import ExprLang.Parsing.Program
import ExprLang.Text.Blank
import ExprLang.Value.Display

/-!
# The console

The console reads lines at a prompt and runs each of them as a program in one scope, so that what a
line binds is seen by the lines after it. It answers a line with the messages of all its diagnostics,
or with its value, if it has one.
-/

namespace ExprLang

namespace Console

/-- The limits for the lines of a session. The calls of the console itself take up a level. -/
def limits : Limits where
  parsing := Limits.standard.parsing - 1
  running := Limits.standard.running - 1
  showing := Limits.standard.showing - 1

/-- What is written before every line is read. -/
def prompt : String := ">> "

/-- A line of output, which may be marked. -/
def outputLine (mark : Mark) (text : String) : String :=
  mark.around text ++ "\n"

/-- The answer to a program that could not be read: every message on its own line. -/
def answerDiagnostics (colour : Bool) (ds : List Diagnostic) : String :=
  String.join (ds.map fun d => outputLine (Mark.redIf colour) d.message)

/-- The answer to a value. -/
def answerValue (limits : Limits) (colour : Bool) (value : Value) : Except Fault String :=
  match value with
  | .nothing => .ok ""
  | value =>
      (value.inspectWithin limits.showing).map
        (outputLine (Mark.redIf (colour && value.isError)))

/-- Reads a program, runs it if it has no diagnostics, and gives the answer to it. -/
def answer (limits : Limits) (colour : Bool) (scope : ScopeId) (program : String) :
    Eval String := do
  match parseWithin limits.parsing program with
  | .error fault => throw fault
  | .ok parsed =>
      if parsed.diagnostics.isEmpty then
        let value ← Eval.evaluateWithin limits.running parsed.tree scope
        match answerValue limits colour value with
        | .ok text => return text
        | .error fault => throw fault
      else
        return answerDiagnostics colour parsed.diagnostics

/-- Runs a line and gives the answer to it; blanks around a line do not count, and an empty line has
no answer. -/
def respond (limits : Limits) (colour : Bool) (scope : ScopeId) (line : String) : Eval String :=
  let program := Text.strip line
  if program.isEmpty then return "" else answer limits colour scope program

/-- What a session wrote, the machine that it left, and the fault that ended it, if one did. -/
structure Transcript where
  output : String
  machine : Machine
  fault : Option Fault

/-- A session over some lines. -/
def session (limits : Limits) (colour : Bool) (scope : ScopeId) :
    List String → Machine → Transcript
  | [], machine => ⟨prompt, machine, none⟩
  | line :: rest, machine =>
      match respond limits colour scope line machine with
      | .error fault machine' => ⟨prompt, machine', some fault⟩
      | .ok answer machine' =>
          let later := session limits colour scope rest machine'
          { later with output := prompt ++ answer ++ later.output }

/-- A session over the lines of an input. -/
def run (limits : Limits) (colour : Bool) (scope : ScopeId) (input : String) (machine : Machine) :
    Transcript :=
  session limits colour scope ((Text.inputLines input.toList).map String.ofList) machine

end Console

end ExprLang
