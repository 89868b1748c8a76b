/-!
# Limits of nesting

What reads a program, runs a tree or shows a value calls itself for every part that is nested, and
only so many calls may be open at a time. Here limits are counted in levels: nested expressions and
statements of a program that is read, nodes of a tree that is run, arrays in arrays that are shown.

## Implementation notes

The calls that a level takes depend on the construct. Reading takes two for an expression in
parentheses, a prefix operator or an index, three for a list of elements or arguments, and five for
the two levels of a block. Running takes two for a node, and one more for a block, for a list of
elements or arguments and for the application of a function. A level is counted for every construct
alike, so lists and applications are free here, and so is the next token, apart from what
`scanLevels` says of it. `parsingLimit` is right for parentheses and prefix operators, and
`nestingLimit` for functions that apply themselves in a conditional. What is nested otherwise reaches
the limit of calls with fewer levels. Results that do not speak of one program at a limit hold of
every limit.
-/

namespace ExprLang

/-- The most calls that may be open at a time. -/
def callLimit : Nat := 5000

/-- The most levels that runs and values may be nested, where two levels take five calls. -/
def nestingLimit : Nat := callLimit * 2 / 5

/-- The most levels that programs may be nested, where a level takes two calls and eight calls are
open around all levels. -/
def parsingLimit : Nat := callLimit / 2 - 4

/-- The levels that are used up where the next token has to be found in a program. A list gives it
with six calls less. -/
def scanLevels : Nat := 3

/-- How deep programs, runs and values may be nested. There is a level at least for the program whose
statements are run and for a value that has no parts. -/
structure Limits where
  /-- The most levels of a program that is read. -/
  parsing : Nat
  /-- The most levels of a run. -/
  running : Nat
  /-- The most levels of a value that is shown. -/
  showing : Nat
  running_pos : 0 < running := by decide
  showing_pos : 0 < showing := by decide

namespace Limits

/-- Limits are compared one by one. -/
instance : LE Limits where
  le a b := a.parsing ≤ b.parsing ∧ a.running ≤ b.running ∧ a.showing ≤ b.showing

/-- The limits for a program that is run by itself. -/
def standard : Limits where
  parsing := parsingLimit - scanLevels
  running := nestingLimit
  showing := nestingLimit

end Limits

end ExprLang
