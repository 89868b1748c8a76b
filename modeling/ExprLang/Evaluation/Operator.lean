import ExprLang.Token.Basic
import ExprLang.Value.Basic

/-!
# Operators on values

What the operators give on values that are known. Arithmetic is done on the integers that two words
stand for, and its result is wrapped to a word again.
-/

namespace ExprLang

/-- What an operator gives. -/
inductive OperatorResult where
  /-- A value that exists already. -/
  | done (value : Value)
  /-- A new integer. -/
  | number (value : Int64)
  /-- A runtime error. -/
  | failed (failure : Failure)
  /-- Nothing, since an operand is missing. -/
  | missing
deriving Inhabited

/-- A new integer, which is the word of a given one modulo 2^64. -/
def OperatorResult.ofInt (n : Int) : OperatorResult :=
  .number (Int64.ofInt n)

namespace Value

/-- The quotient of two integers without its fraction: that of their magnitudes, below zero if just
one of them is. -/
def quotient (x y : Int) : Int :=
  let magnitude : Nat := x.natAbs / y.natAbs
  if x < 0 ↔ y < 0 then magnitude else -magnitude

/-- An infix operator between two integers. Division is toward zero. -/
def integerInfix (a : Int64) (operator : Token) (b : Int64) : OperatorResult :=
  let x := a.toInt
  let y := b.toInt
  match operator.kind with
  | .plus => .ofInt (x + y)
  | .minus => .ofInt (x - y)
  | .star => .ofInt (x * y)
  | .slash => if y = 0 then .failed (.divisionByZero x) else .ofInt (quotient x y)
  | .less => .done (.boolean (x < y))
  | .greater => .done (.boolean (y < x))
  | .atMost => .done (.boolean (x ≤ y))
  | .atLeast => .done (.boolean (y ≤ x))
  | .equal => .done (.boolean (x = y))
  | .notEqual => .done (.boolean (x ≠ y))
  | _ => .failed (.unknownInfix .integer operator.text .integer)

/-- An infix operator between two values; `identical` tells whether they are one and the same. -/
def applyInfix (identical : Bool) (left : Value) (operator : Token) (right : Value) :
    OperatorResult :=
  match left, right with
  | .nothing, _ | _, .nothing => .missing
  | .integer _ a, .integer _ b => integerInfix a operator b
  | left, right =>
      if left.kind ≠ right.kind then
        .failed (.typeMismatch left.kind operator.text right.kind)
      else
        match operator.kind with
        | .equal => .done (.boolean identical)
        | .notEqual => .done (.boolean (!identical))
        | _ => .failed (.unknownInfix left.kind operator.text right.kind)

/-- A prefix operator on a value. -/
def applyPrefix (operator : Token) (operand : Value) : OperatorResult :=
  match operator.kind with
  | .bang => .done (.boolean (!operand.isTruthy))
  | .minus =>
      match operand with
      | .nothing => .missing
      | .integer _ n => .ofInt (-n.toInt)
      | v => .failed (.unknownPrefix "-" v.kind)
  | _ =>
      match operand with
      | .nothing => .missing
      | v => .failed (.unknownPrefix operator.text v.kind)

/-- The element at a position, counted from zero; null if there is none, or if what is indexed is no
array. -/
def elementAt (collection position : Value) : OperatorResult :=
  match collection with
  | .nothing => .missing
  | .array _ elements =>
      match position with
      | .nothing => .missing
      | .integer _ n =>
          if n.toInt < 0 then .done .null else .done (elements[n.toInt.toNat]?.getD .null)
      | _ => .done .null
  | _ => .done .null

end Value

end ExprLang
