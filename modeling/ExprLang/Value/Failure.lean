/-!
# Runtime errors

A runtime error is a value of the language. It says what went wrong in terms of the kinds of values
involved, which have names of their own.
-/

namespace ExprLang

/-- The kinds of values that messages name. -/
inductive ValueKind where
  | integer
  | boolean
  | null
  | array
  | function
  | returned
  | error
  /-- A value of no particular kind. -/
  | unspecified
deriving DecidableEq, Repr, Inhabited

/-- The name of a kind of values. -/
def ValueKind.name : ValueKind → String
  | .integer => "INTEGER"
  | .boolean => "BOOLEAN"
  | .null => "NULL"
  | .array => "ARRAY"
  | .function => "FUNCTION"
  | .returned => "RETURN_VALUE"
  | .error => "ERROR"
  | .unspecified => "None"

/-- What went wrong in a run. -/
inductive Failure where
  /-- A name is not bound. -/
  | unboundIdentifier (name : String)
  /-- A prefix operator does not apply to its operand. -/
  | unknownPrefix (operator : String) (operand : ValueKind)
  /-- The operands of an infix operator are of different kinds. -/
  | typeMismatch (left : ValueKind) (operator : String) (right : ValueKind)
  /-- An infix operator does not apply to its operands. -/
  | unknownInfix (left : ValueKind) (operator : String) (right : ValueKind)
  /-- A number is divided by zero. -/
  | divisionByZero (dividend : Int)
  /-- What is called is no function. -/
  | notAFunction (callee : ValueKind)
  /-- The run is nested too deeply. -/
  | nestedTooDeep
  /-- A failure that is given by its wording. -/
  | stated (message : String)
deriving DecidableEq, Repr, Inhabited

/-- The wording of a failure. -/
def Failure.message : Failure → String
  | .unboundIdentifier name => "identifier not found: " ++ name
  | .unknownPrefix operator operand => "unknown operator: " ++ operator ++ operand.name
  | .typeMismatch left operator right =>
      "type mismatch: " ++ left.name ++ " " ++ operator ++ " " ++ right.name
  | .unknownInfix left operator right =>
      "unknown operator: " ++ left.name ++ " " ++ operator ++ " " ++ right.name
  | .divisionByZero dividend => "division by zero: " ++ toString dividend ++ " / 0"
  | .notAFunction callee => "not a function: " ++ callee.name
  | .nestedTooDeep => "maximum recursion depth exceeded"
  | .stated message => message

end ExprLang
