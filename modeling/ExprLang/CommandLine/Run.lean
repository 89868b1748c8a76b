import ExprLang.CommandLine.Arguments
import ExprLang.Console
import ExprLang.Text.Utf8

/-!
# Runs from the command line

A program file is run, or written out with explicit grouping; without a file the console is started.
What a run writes and how it ends is determined by the arguments, the file and the input.
-/

namespace ExprLang

namespace CommandLine

/-- How a run ends. -/
inductive Ending where
  /-- With a status. -/
  | status (code : Nat)
  /-- With a status, before anything was run. -/
  | exit (code : Nat)
  /-- By a fault of the interpreter. -/
  | fault (fault : Fault)
  /-- There is no such file. -/
  | missingFile (name : String)
  /-- The name holds a null character, which no file name does. -/
  | impossibleName
  /-- The file is not in UTF-8. -/
  | undecodable (fault : Text.Utf8Fault)
deriving DecidableEq, Repr

namespace Ending

/-- The exit code of the program. -/
def code : Ending → Nat
  | .status code | .exit code => code
  | .fault _ | .missingFile _ | .impossibleName | .undecodable _ => 1

/-- What is said about a run that comes to no regular end. -/
def message? : Ending → Option String
  | .status _ | .exit _ => none
  | .fault f => some f.message
  | .missingFile name => some ("[Errno 2] No such file or directory: " ++ Text.quoted name)
  | .impossibleName => some "embedded null byte"
  | .undecodable f => some f.message

end Ending

/-- What a run writes, and how it ends. -/
structure Outcome where
  output : String := ""
  errors : String := ""
  ending : Ending
deriving DecidableEq, Repr

/-- The outcome when nothing is run. -/
def refuse (refusal : Refusal) : Outcome :=
  match refusal.complaint? with
  | none => { output := helpText, ending := .exit 0 }
  | some complaint =>
      { errors := usage ++ "pratt: error: " ++ complaint ++ "\n", ending := .exit 2 }

/-- Writes a tree out with explicit grouping. -/
def printTree (tree : Node) : Outcome :=
  match tree.printWithin nestingLimit with
  | some text => { output := text ++ "\n", ending := .status 0 }
  | none =>
      { errors := Complaint.nestedTooDeep.message ++ "\n", ending := .status 1 }

/-- Runs a tree and writes its value. -/
def runTree (tree : Node) : Outcome :=
  match Eval.evaluate tree 0 Machine.initial with
  | .error fault _ => { ending := .fault fault }
  | .ok value _ =>
      let status := if value.isError then 1 else 0
      match value with
      | .nothing => { ending := .status status }
      | value =>
          match value.inspectWithin nestingLimit with
          | .ok text => { output := text ++ "\n", ending := .status status }
          | .error fault => { ending := .fault fault }

/-- Runs the text of a program as the arguments say. -/
def runText (arguments : Arguments) (program : String) : Outcome :=
  match parse program with
  | .error fault => { ending := .fault fault }
  | .ok parsed =>
      match Diagnostic.report? parsed.diagnostics program arguments.colour with
      | some report => { errors := Text.strip report ++ "\n", ending := .status 1 }
      | none => if arguments.printTree then printTree parsed.tree else runTree parsed.tree

/-- Runs the bytes of a program file as the arguments say. -/
def runBytes (arguments : Arguments) (bytes : List UInt8) : Outcome :=
  match Text.decodeUtf8 bytes with
  | .error fault => { ending := .undecodable fault }
  | .ok text => runText arguments (String.ofList (Text.unifyLineEnds text.toList))

/-- Runs the console on an input. -/
def runConsole (arguments : Arguments) (input : String) : Outcome :=
  let transcript := Console.run Console.limits arguments.colour 0 input Machine.initial
  match transcript.fault with
  | none => { output := transcript.output ++ "\n", ending := .status 0 }
  | some fault => { output := transcript.output, ending := .fault fault }

/-- Runs the file of a name as the arguments say, given its bytes if it exists. -/
def runFile (arguments : Arguments) (name : String) (contents : Option (List UInt8)) : Outcome :=
  if name.toList.contains '\x00' then { ending := .impossibleName }
  else
    match contents with
    | none => { ending := .missingFile name }
    | some bytes => runBytes arguments bytes

/-- A run from the command line, given the contents of files and the input. -/
def run (files : String → Option (List UInt8)) (input : String) (arguments : List String) :
    Outcome :=
  match Arguments.read arguments with
  | .error refusal => refuse refusal
  | .ok arguments =>
      match arguments.file with
      | none => runConsole arguments input
      | some name => runFile arguments name (files name)

end CommandLine

end ExprLang
