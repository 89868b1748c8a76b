/-!
# Spans

A span is a stretch of a program: its first and last line, counted from one, the column where it
starts on the first and the column where it ends on the last, counted from zero.

## Implementation notes

Line and column numbers are integers, since a token that was never in a text stands on no line.
-/

namespace ExprLang

/-- A stretch of a program, from a column of one line to a column of another. -/
structure Span where
  startLine : Int
  endLine : Int
  startColumn : Int
  endColumn : Int
deriving DecidableEq, Repr, Inhabited

namespace Span

/-- A stretch of a single line. -/
def onLine (line startColumn endColumn : Int) : Span :=
  ⟨line, line, startColumn, endColumn⟩

/-- The span of what stands in no text. -/
def nowhere : Span :=
  onLine (-1) 0 (-1)

/-- Whether the span reaches over more than one line. -/
def isMultiline (s : Span) : Bool :=
  s.startLine != s.endLine

/-- The lines of the span, as messages name them. -/
def describeLines (s : Span) : String :=
  if s.isMultiline then s!"lines [{s.startLine}-{s.endLine}]" else s!"line [{s.startLine}]"

/-- The span from the first to the last line of two spans. When they start on different lines, the
one that starts first gives the starting column and the other gives the ending column. -/
def cover (a b : Span) : Span where
  startLine := min a.startLine b.startLine
  endLine := max a.endLine b.endLine
  startColumn :=
    if a.startLine < b.startLine then a.startColumn
    else if b.startLine < a.startLine then b.startColumn
    else min a.startColumn b.startColumn
  endColumn :=
    if a.startLine < b.startLine then b.endColumn
    else if b.startLine < a.startLine then a.endColumn
    else max a.endColumn b.endColumn

@[simp] theorem cover_self (a : Span) : a.cover a = a := by
  simp [cover]

end Span

end ExprLang
