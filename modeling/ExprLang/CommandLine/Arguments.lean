import ExprLang.Text.Numeral

/-!
# Arguments of the command line

The command line names a file at most, and may hold flags at any place before a `--`. A long flag may
be cut short as long as one flag only begins that way. What is neither a flag nor the file is not
recognized.

## Implementation notes

The arguments are classified first; the flags then act in order, so a call for help wins over a
complaint about what follows it.
-/

namespace ExprLang

namespace CommandLine

/-- What a flag asks for. -/
inductive Flag where
  | help
  | printTree
  | noColour
deriving DecidableEq, Repr

namespace Flag

/-- All flags. -/
def all : List Flag := [.help, .printTree, .noColour]

/-- The ways of writing a flag. -/
def spellings : Flag → List String
  | .help => ["-h", "--help"]
  | .printTree => ["--print-ast"]
  | .noColour => ["--no-color"]

/-- A flag as messages name it. -/
def label (f : Flag) : String :=
  "/".intercalate f.spellings

/-- All ways of writing flags, with the flags. -/
def table : List (String × Flag) :=
  all.flatMap fun f => f.spellings.map fun s => (s, f)

/-- The ways of writing flags that begin with a text. -/
def beginningWith (start : String) : List (String × Flag) :=
  table.filter fun entry => start.toList.isPrefixOf entry.1.toList

end Flag

/-- What an argument is taken for. -/
inductive Reading where
  /-- A file name. -/
  | plain
  /-- A flag. -/
  | flag (flag : Flag)
  /-- A flag with a value, which no flag takes. -/
  | flagWithValue (flag : Flag) (value : String)
  /-- The beginning of several flags. -/
  | ambiguous (candidates : List String)
  /-- Written like a flag, but none. -/
  | unknown
deriving DecidableEq, Repr

/-- The parts of a text before and after its first equals sign. -/
def splitAtEquals (text : List Char) : List Char × Option (List Char) :=
  match text.dropWhile (· != '=') with
  | [] => (text, none)
  | _ :: value => (text.takeWhile (· != '='), some value)

/-- What is left of letters that are written together when those of the short flag for help are taken
off; this is refused as a value. -/
def valueInCluster? : List Char → Option (List Char)
  | [] => none
  | 'h' :: rest => valueInCluster? rest
  | rest => some rest

/-- Whether a text is a number after a dash, with digits of any script; a line feed may follow. -/
def isNegativeNumber (text : List Char) : Bool :=
  let isDigit (c : Char) : Bool := (Text.digitValue? c).isSome
  let body := if text.getLast? == some '\n' then text.dropLast else text
  match body with
  | '-' :: number =>
      match number.dropWhile isDigit with
      | [] => !number.isEmpty
      | '.' :: fraction => !fraction.isEmpty && fraction.all isDigit
      | _ => false
  | _ => false

/-- What an argument is taken for that starts with a dash and is no flag. -/
def readOther (argument : List Char) : Reading :=
  if isNegativeNumber argument || argument.contains ' ' then .plain else .unknown

/-- A flag with the value that is written behind it, if there is one. -/
def flagReading (flag : Flag) (value : Option (List Char)) : Reading :=
  match value with
  | none => .flag flag
  | some value => .flagWithValue flag (String.ofList value)

/-- What an argument is taken for that starts with two dashes. -/
def readLong (argument : List Char) : Reading :=
  let (start, value) := splitAtEquals argument
  match Flag.beginningWith (String.ofList start) with
  | [] => readOther argument
  | [(_, flag)] => flagReading flag value
  | candidates => .ambiguous (candidates.map (·.1))

/-- What an argument is taken for that starts with one dash. Behind the short flag for help and an
equals sign may stand more letters of flags, but not nothing. -/
def readShort (argument : List Char) : Reading :=
  match argument with
  | ['-', 'h', '='] => .flagWithValue .help ""
  | '-' :: 'h' :: '=' :: cluster => flagReading .help (valueInCluster? cluster)
  | '-' :: 'h' :: cluster => flagReading .help (valueInCluster? cluster)
  | _ => readOther argument

/-- What an argument before a `--` is taken for. -/
def Reading.of (argument : String) : Reading :=
  match argument.toList with
  | '-' :: '-' :: rest => readLong ('-' :: '-' :: rest)
  | '-' :: c :: rest => readShort ('-' :: c :: rest)
  | _ => .plain

/-- What the command line asks for. -/
structure Arguments where
  file : Option String := none
  printTree : Bool := false
  colour : Bool := true
deriving DecidableEq, Repr

/-- Why the command line asks for no run. -/
inductive Refusal where
  /-- Help is wanted. -/
  | help
  /-- A flag may be one of several. -/
  | ambiguous (argument : String) (candidates : List String)
  /-- A flag is given a value. -/
  | ignoredValue (flag : Flag) (value : String)
  /-- Some arguments are not recognized. -/
  | unrecognized (arguments : List String)
deriving DecidableEq, Repr

/-- The arguments read so far, and those that were not recognized. -/
structure Progress where
  arguments : Arguments := {}
  extras : List String := []
deriving DecidableEq, Repr

namespace Progress

/-- Takes an argument for the file, or for an extra one if there is a file. -/
def takePlain (p : Progress) (argument : String) : Progress :=
  match p.arguments.file with
  | none => { p with arguments := { p.arguments with file := some argument } }
  | some _ => { p with extras := p.extras ++ [argument] }

/-- Lets a flag act. -/
def takeFlag (p : Progress) : Flag → Except Refusal Progress
  | .help => .error .help
  | .printTree => .ok { p with arguments := { p.arguments with printTree := true } }
  | .noColour => .ok { p with arguments := { p.arguments with colour := false } }

/-- Takes one argument for what it was classified as. -/
def take (p : Progress) (argument : String) : Reading → Except Refusal Progress
  | .plain => .ok (p.takePlain argument)
  | .flag flag => p.takeFlag flag
  | .flagWithValue flag value => .error (.ignoredValue flag value)
  | .ambiguous candidates => .error (.ambiguous argument candidates)
  | .unknown => .ok { p with extras := p.extras ++ [argument] }

/-- Takes arguments in order. -/
def takeAll (p : Progress) : List (String × Reading) → Except Refusal Progress
  | [] => .ok p
  | (argument, reading) :: rest =>
      match p.take argument reading with
      | .error refusal => .error refusal
      | .ok p' => p'.takeAll rest

/-- Takes a `--` and the arguments behind it. The `--` disappears if the file stands right before it
or is still missing, and is an extra argument otherwise. -/
def takeVerbatim (p : Progress) (adjoining : Bool) (arguments : List String) : Progress :=
  match p.arguments.file, arguments with
  | none, [] => p
  | none, file :: rest =>
      { arguments := { p.arguments with file := some file }, extras := p.extras ++ rest }
  | some _, rest =>
      { p with extras := p.extras ++ (if adjoining then rest else "--" :: rest) }

end Progress

/-- The arguments before the first `--`, and those behind it if there is one. -/
def splitAtDashes : List String → List String × Option (List String)
  | [] => ([], none)
  | "--" :: rest => ([], some rest)
  | argument :: rest =>
      let (before, behind) := splitAtDashes rest
      (argument :: before, behind)

/-- Whether the file is the last of the arguments, with no flag behind it. -/
def endsInFile (readings : List Reading) : Bool :=
  (readings.reverse.takeWhile (· == .plain)).length == 1 &&
    (readings.filter (· == .plain)).length == 1

/-- The first argument that may be one of several flags. -/
def firstAmbiguous? : List (String × Reading) → Option Refusal
  | [] => none
  | (argument, .ambiguous candidates) :: _ => some (.ambiguous argument candidates)
  | _ :: rest => firstAmbiguous? rest

/-- The outcome of arguments that have been taken: they are refused if some are not recognized. -/
def Progress.finish (p : Progress) : Except Refusal Arguments :=
  if p.extras.isEmpty then .ok p.arguments else .error (.unrecognized p.extras)

/-- What the arguments of a command line ask for. -/
def Arguments.read (arguments : List String) : Except Refusal Arguments :=
  let (before, behind) := splitAtDashes arguments
  let readings : List (String × Reading) := before.map fun a => (a, Reading.of a)
  match firstAmbiguous? readings with
  | some refusal => .error refusal
  | none =>
      match Progress.takeAll {} readings, behind with
      | .error refusal, _ => .error refusal
      | .ok taken, none => taken.finish
      | .ok taken, some rest =>
          (taken.takeVerbatim (endsInFile (readings.map fun r => r.2)) rest).finish

/-! ### Texts -/

/-- The summary of the command line. -/
def usage : String :=
  "usage: pratt [-h] [--print-ast] [--no-color] [file]\n"

/-- The help text. -/
def helpText : String :=
  usage ++
    "\nInterpreter for a small expression language.\n" ++
    "\npositional arguments:\n" ++
    "  file         file to interpret and run (if empty, goes to the interactive\n" ++
    "               console)\n" ++
    "\noptions:\n" ++
    "  -h, --help   show this help message and exit\n" ++
    "  --print-ast  print the parsed program with explicit grouping instead of\n" ++
    "               running it\n" ++
    "  --no-color   do not color error messages\n"

/-- The complaint about a command line; there is none when help is wanted. -/
def Refusal.complaint? : Refusal → Option String
  | .help => none
  | .ambiguous argument candidates =>
      some ("ambiguous option: " ++ argument ++ " could match " ++ ", ".intercalate candidates)
  | .ignoredValue flag value =>
      some ("argument " ++ flag.label ++ ": ignored explicit argument " ++ Text.quoted value)
  | .unrecognized arguments => some ("unrecognized arguments: " ++ " ".intercalate arguments)

end CommandLine

end ExprLang
