import ExprLang.CommandLine.Run

/-!
# The program

Reads the arguments and the file, and writes what a run gives. The console answers every line as
soon as it is read.
-/

namespace ExprLang

namespace CommandLine

/-- Writes the outcome of a run; gives the exit code. -/
def Outcome.write (outcome : Outcome) : IO UInt32 := do
  IO.print outcome.output
  IO.eprint outcome.errors
  match outcome.ending.message? with
  | some message => IO.eprintln message
  | none => pure ()
  return UInt32.ofNat outcome.ending.code

/-- The bytes of a file, if it can be read. -/
def fileBytes? (name : String) : IO (Option (List UInt8)) := do
  try
    return some (← IO.FS.readBinFile name).toList
  catch _ =>
    return none

/-- Answers lines of the input until it ends. -/
partial def converse (colour : Bool) (input output : IO.FS.Stream) (machine : Machine) :
    IO UInt32 := do
  output.putStr Console.prompt
  output.flush
  let line ← input.getLine
  if line.isEmpty then
    output.putStr "\n"
    return 0
  else
    match Console.respond Console.limits colour 0 line machine with
    | .ok answer machine' =>
        output.putStr answer
        converse colour input output machine'
    | .error fault _ => Outcome.write { ending := .fault fault }

/-- A run from the command line; gives the exit code. -/
def execute (arguments : List String) : IO UInt32 := do
  match Arguments.read arguments with
  | .error refusal => (refuse refusal).write
  | .ok arguments =>
      match arguments.file with
      | none => converse arguments.colour (← IO.getStdin) (← IO.getStdout) Machine.initial
      | some name => (runFile arguments name (← fileBytes? name)).write

end CommandLine

end ExprLang

def main (arguments : List String) : IO UInt32 :=
  ExprLang.CommandLine.execute arguments
