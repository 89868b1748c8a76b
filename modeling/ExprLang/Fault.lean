import ExprLang.Text.Numeral

/-!
# Faults

A fault ends a run of the interpreter itself, unlike a diagnostic, which is listed, and unlike a
runtime error, which is a value.
-/

namespace ExprLang

/-- What ends a run of the interpreter. -/
inductive Fault where
  /-- The nesting limit is reached. -/
  | tooDeep
  /-- The text of an integer token is no integer. -/
  | unreadableInteger (reason : Text.Unreadable)
  /-- A value is worked with where there is none. -/
  | missingValue
  /-- A value is shown where there is none. -/
  | nothingToShow
  /-- A value has no text form. -/
  | noText
deriving DecidableEq, Repr

/-- The wording of a fault. -/
def Fault.message : Fault → String
  | .tooDeep => "nested too deeply"
  | .unreadableInteger reason => reason.message
  | .missingValue => "a value is missing"
  | .nothingToShow => "there is no value to show"
  | .noText => "the value has no text"

end ExprLang
