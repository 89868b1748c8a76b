/-!
# Lines of a text

A text is a sequence of lines, each ended by a line break. A carriage return and the line feed
after it are one break, and a break at the end of the text opens no further line.
-/

namespace ExprLang.Text

/-- The characters that end a line. -/
def isLineBreak (c : Char) : Bool :=
  c ∈ ['\n', '\r', '\x0b', '\x0c', '\x1c', '\x1d', '\x1e', '\u0085', '\u2028', '\u2029']

/-- Puts a character in front of the first line, opening one if there is none. -/
def prependToLine (c : Char) : List (List Char) → List (List Char)
  | [] => [[c]]
  | line :: rest => (c :: line) :: rest

/-- The lines of a text, without their breaks. -/
def lines : List Char → List (List Char)
  | [] => []
  | '\r' :: '\n' :: rest => [] :: lines rest
  | c :: rest => if isLineBreak c then [] :: lines rest else prependToLine c (lines rest)

/-- The lines of an input, which are ended by line feeds only. -/
def inputLines : List Char → List (List Char)
  | [] => []
  | '\n' :: rest => [] :: inputLines rest
  | c :: rest => prependToLine c (inputLines rest)

/-- A text with every carriage return, alone or before a line feed, as a line feed. -/
def unifyLineEnds : List Char → List Char
  | [] => []
  | '\r' :: '\n' :: rest => '\n' :: unifyLineEnds rest
  | '\r' :: rest => '\n' :: unifyLineEnds rest
  | c :: rest => c :: unifyLineEnds rest

@[simp] theorem lines_nil : lines [] = [] := rfl

theorem lines_ne_nil {text : List Char} (h : text ≠ []) : lines text ≠ [] := by
  fun_cases lines text with
  | case1 => exact absurd rfl h
  | case2 rest => simp
  | case3 c rest _ hc => simp
  | case4 c rest _ hc => cases lines rest <;> simp [prependToLine]

end ExprLang.Text
