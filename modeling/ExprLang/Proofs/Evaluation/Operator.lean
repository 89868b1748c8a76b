import ExprLang.Evaluation.Operator

/-!
# What operators give

An operator gives a boolean, null, a new integer, an error, or an element of an array among its
operands. It gives nothing only if an operand is missing.
-/

namespace ExprLang

/-- What an operator may give on some operands. -/
inductive OperatorResult.Of (operands : List Value) : OperatorResult → Prop where
  | boolean (b : Bool) : Of operands (.done (.boolean b))
  | null : Of operands (.done .null)
  | number (n : Int64) : Of operands (.number n)
  | failed (failure : Failure) : Of operands (.failed failure)
  | element {identity : Nat} {es : List Value} {e : Value}
      (ha : .array identity es ∈ operands) (he : e ∈ es) : Of operands (.done e)
  | missing (hn : .nothing ∈ operands) : Of operands .missing

namespace Value

open OperatorResult (Of)

theorem integerInfix_of (operands : List Value) (a : Int64) (operator : Token) (b : Int64) :
    Of operands (integerInfix a operator b) := by
  simp only [integerInfix]
  split
  case h_4 =>
    split
    · exact .failed _
    · exact .number _
  case h_11 => exact .failed _
  all_goals first | exact .number _ | exact .boolean _

/-- Between values that are no integers only equality has a result. -/
theorem applyInfix_of (identical : Bool) (left : Value) (operator : Token) (right : Value) :
    Of [left, right] (applyInfix identical left operator right) := by
  unfold applyInfix
  split
  · exact .missing (by simp)
  · exact .missing (by simp)
  · exact integerInfix_of _ _ _ _
  · split
    · exact .failed _
    · split
      · exact .boolean _
      · exact .boolean _
      · exact .failed _

theorem applyPrefix_of (operator : Token) (operand : Value) :
    Of [operand] (applyPrefix operator operand) := by
  unfold applyPrefix
  split
  · exact .boolean _
  · split
    · exact .missing (by simp)
    · exact .number _
    · exact .failed _
  · split
    · exact .missing (by simp)
    · exact .failed _

theorem elementAt_of (collection position : Value) :
    Of [collection, position] (elementAt collection position) := by
  unfold elementAt
  split
  · exact .missing (by simp)
  · next identity elements =>
      split
      · exact .missing (by simp)
      · next n =>
          split
          · exact .null
          · cases he : elements[n.toInt.toNat]? with
            | none => exact .null
            | some e => exact .element (List.mem_cons_self ..) (List.mem_of_getElem? he)
      · exact .null
  · exact .null

end Value

end ExprLang
