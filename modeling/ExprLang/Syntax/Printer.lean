import ExprLang.Syntax.Node

/-!
# Trees as programs

A tree is written as a program that spells out how its operators group: every operator with its
operands and every index stands in parentheses. Read again, the text of a tree that the grammar
allows gives the tree back.

## Implementation notes

An expression that stands as a statement needs a semicolon only where another statement follows. A
condition is put in parentheses unless it brings its own.
-/

namespace ExprLang

namespace Node

/-- The text of a boolean. -/
def booleanText (b : Bool) : String :=
  if b then "true" else "false"

/-- What follows a statement that is not the last one. -/
def terminator (statement : Node) : String :=
  if statement.isEvaluated then "; " else " "

/-- The text of a condition, in one pair of parentheses. -/
def conditionText (condition : Node) (text : String) : String :=
  if condition.isOperation then text else "(" ++ text ++ ")"

mutual

/-- The program text of a tree. -/
def print : Node → String
  | .program ss _ => printStatements ss
  | .block ss _ => if ss.isEmpty then "{ }" else "\x7b " ++ printStatements ss ++ " \x7d"
  | .letBinding n v _ => "let " ++ n.text ++ " = " ++ v.print ++ ";"
  | .returning v _ => "return " ++ v.print ++ ";"
  | .evaluated e _ => e.print
  | .identifier n _ => n
  | .integer v _ => toString v
  | .boolean v _ => booleanText v
  | .array es _ => "[" ++ ", ".intercalate (printAll es) ++ "]"
  | .unary o e _ => "(" ++ o.text ++ e.print ++ ")"
  | .binary l o r _ => "(" ++ l.print ++ " " ++ o.text ++ " " ++ r.print ++ ")"
  | .ifThen c t _ => "if " ++ conditionText c c.print ++ " " ++ t.print
  | .ifElse c t e _ => "if " ++ conditionText c c.print ++ " " ++ t.print ++ " else " ++ e.print
  | .function ps b _ => "func(" ++ ", ".intercalate (ps.map Name.text) ++ ") " ++ b.print
  | .call f es _ => f.print ++ "(" ++ ", ".intercalate (printAll es) ++ ")"
  | .index l i _ => "(" ++ l.print ++ "[" ++ i.print ++ "])"
  | .placeholder _ => "None"

/-- The texts of a list of trees. -/
def printAll : List Node → List String
  | [] => []
  | n :: rest => n.print :: printAll rest

/-- The text of statements one after the other. -/
def printStatements : List Node → String
  | [] => ""
  | [s] => s.print
  | s :: next :: rest => s.print ++ terminator s ++ printStatements (next :: rest)

end

/-- The program text of a tree that has no more levels than the limit. -/
def printWithin (limit : Nat) (n : Node) : Option String :=
  if n.height ≤ limit then some n.print else none

end Node

end ExprLang
