import ExprLang.Syntax.Node
import ExprLang.Value.Failure

/-!
# Values

Running a node gives a value. A statement that produces nothing gives `nothing`. A return and a
runtime error are markers: they end every enclosing step and travel outward as its result, a return
up to the enclosing function or program.

## Implementation notes

Integers are words of 64 bits. Integers, arrays, functions and values of no kind have an identity,
which they keep when they are bound, passed on or put into an array; booleans and null exist once.
Equality in the language is identity for all but integers. A function holds the scope it was made in,
not a copy of it.
-/

namespace ExprLang

/-- The number of a scope. -/
abbrev ScopeId := Nat

/-- What a node gives when it is run. -/
inductive Value where
  /-- No value at all. -/
  | nothing
  /-- A 64-bit integer. -/
  | integer (identity : Nat) (value : Int64)
  /-- A boolean. -/
  | boolean (value : Bool)
  /-- The null value. -/
  | null
  /-- An array. -/
  | array (identity : Nat) (elements : List Value)
  /-- A function and the scope that it was made in. -/
  | function (identity : Nat) (parameters : List Name) (body : Node) (scope : ScopeId)
  /-- A value on its way out of a function or program. -/
  | returned (value : Value)
  /-- A runtime error. -/
  | error (failure : Failure)
  /-- A value of no particular kind. -/
  | unspecified (identity : Nat)
deriving Inhabited

namespace Value

/-- The kind of a value. -/
def kind : Value → ValueKind
  | .integer .. => .integer
  | .boolean _ => .boolean
  | .null => .null
  | .array .. => .array
  | .function .. => .function
  | .returned _ => .returned
  | .error _ => .error
  | .nothing | .unspecified _ => .unspecified

/-- Whether there is no value. -/
def isNothing : Value → Bool
  | .nothing => true
  | _ => false

/-- Whether a value ends the enclosing steps. -/
def isMarker : Value → Bool
  | .returned _ | .error _ => true
  | _ => false

/-- Whether a value is a runtime error. -/
def isError : Value → Bool
  | .error _ => true
  | _ => false

/-- Whether a value counts as true: all do but null and false. -/
def isTruthy : Value → Bool
  | .null | .boolean false => false
  | _ => true

/-- The value of a branch or call: null if it produced nothing. -/
def orNull : Value → Value
  | .nothing => .null
  | v => v

/-- Whether two values are one and the same. -/
def isIdentical : Value → Value → Bool
  | .nothing, .nothing => true
  | .integer a _, .integer b _ => a == b
  | .boolean a, .boolean b => a == b
  | .null, .null => true
  | .array a _, .array b _ => a == b
  | .function a _ _ _, .function b _ _ _ => a == b
  | .unspecified a, .unspecified b => a == b
  | _, _ => false

end Value

end ExprLang
