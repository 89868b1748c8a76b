import ExprLang.Span
import ExprLang.Text.Line
import ExprLang.Text.Slice

/-!
# Excerpts of a program

A notice shows the lines of a program around a span. The lines are numbered, the numbers end in one
column, an arrow stands before the lines of the span, and the span itself may be coloured.
-/

namespace ExprLang

/-- What is written before and after a span that is shown. -/
structure Mark where
  start : String
  stop : String
deriving DecidableEq, Repr, Inhabited

namespace Mark

/-- No mark at all. -/
def plain : Mark := ⟨"", ""⟩

/-- What ends a colour on a terminal. -/
def colourEnd : String := "\x1b[m"

/-- A colour, given by what switches it on; nothing is a mark of no colour. -/
def coloured (start : String) : Mark :=
  if start.isEmpty then plain else ⟨start, colourEnd⟩

/-- The colour red on a terminal. -/
def red : Mark := coloured "\x1b[31m"

/-- The colour red, if colours are wanted. -/
def redIf (colour : Bool) : Mark :=
  if colour then red else plain

/-- A text in its mark. -/
def around (m : Mark) (text : String) : String :=
  m.start ++ text ++ m.stop

end Mark

/-- What is said about a span, and how many lines around it are shown. -/
structure Notice where
  heading : String := "InterpreterError"
  lead : String := ""
  trailer : String := ""
  linesBefore : Int := 1
  linesAfter : Int := 1
  mark : Mark := Mark.red
deriving Repr

namespace Notice

/-- The lines that are shown. -/
def shownLines (n : Notice) (lines : List (List Char)) (span : Span) : List (List Char) :=
  Text.slice lines (max 0 (span.startLine - n.linesBefore - 1)) (span.endLine + n.linesAfter)

/-- The number of the first line that is shown. -/
def firstNumber (n : Notice) (span : Span) : Int :=
  max 1 (span.startLine - n.linesBefore)

/-- A line with the part of it that lies in the span marked. -/
def markedLine (mark : Mark) (span : Span) (number : Int) (line : List Char) : String :=
  if number = span.startLine then
    if span.isMultiline then
      String.ofList (Text.before line span.startColumn) ++
        mark.around (String.ofList (Text.since line span.startColumn))
    else
      String.ofList (Text.before line span.startColumn) ++
        mark.around (String.ofList (Text.slice line span.startColumn span.endColumn)) ++
        String.ofList (Text.since line span.endColumn)
  else if number < span.endLine then
    mark.around (String.ofList line)
  else
    mark.around (String.ofList (Text.before line span.endColumn)) ++
      String.ofList (Text.since line span.endColumn)

/-- A number with blanks in front, so that it is as wide as the widest one. -/
def paddedNumber (widest number : Int) : String :=
  let width := (toString widest).length
  let text := toString number
  String.ofList (List.replicate (width - text.length) ' ') ++ text

/-- A numbered line, with an arrow in front if it belongs to the span. -/
def numberedLine (mark : Mark) (span : Span) (widest number : Int) (line : List Char) : String :=
  let label := paddedNumber widest number ++ ". "
  if span.startLine ≤ number ∧ number ≤ span.endLine then
    "-> " ++ label ++ markedLine mark span number line
  else
    "   " ++ label ++ String.ofList line

/-- Numbered lines, from a number on. -/
def numberedLines (mark : Mark) (span : Span) (widest : Int) :
    (number : Int) → List (List Char) → List String
  | _, [] => []
  | number, line :: rest =>
      numberedLine mark span widest number line ::
        numberedLines mark span widest (number + 1) rest

/-- The text of a notice about a span of a program. -/
def render (n : Notice) (program : String) (span : Span) : String :=
  let shown := n.shownLines (Text.lines program.toList) span
  let start := n.firstNumber span
  let excerpt := numberedLines n.mark span (start + shown.length - 1) start shown
  n.heading ++ ": " ++ n.lead ++ "\n" ++ "\n".intercalate excerpt ++
    (if n.trailer.isEmpty then "" else "\n" ++ n.trailer)

end Notice

end ExprLang
