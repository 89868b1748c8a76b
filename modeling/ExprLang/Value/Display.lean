import ExprLang.Fault
import ExprLang.Syntax.Printer
import ExprLang.Value.Basic

/-!
# Texts of values

A value is shown to the user as the language would write it, an error as its message. A description
spells out how a value is made up.
-/

namespace ExprLang

namespace Value

/-- The text of a function. -/
def functionText (parameters : List Name) (body : Node) : String :=
  "func(" ++ ", ".intercalate (parameters.map Name.text) ++ ") " ++ body.print

mutual

/-- The text of a value as it is shown to the user. -/
def inspect : Value → Except Fault String
  | .nothing => .error .nothingToShow
  | .integer _ n => .ok (toString n.toInt)
  | .boolean b => .ok (Node.booleanText b)
  | .null => .ok "null"
  | .array _ es =>
      match inspectAll es with
      | .ok texts => .ok ("[" ++ ", ".intercalate texts ++ "]")
      | .error fault => .error fault
  | .function _ ps b _ => .ok (functionText ps b)
  | .returned v => inspect v
  | .error failure => .ok failure.message
  | .unspecified _ => .error .noText

/-- The texts of a list of values. -/
def inspectAll : List Value → Except Fault (List String)
  | [] => .ok []
  | v :: rest =>
      match inspect v with
      | .error fault => .error fault
      | .ok text =>
          match inspectAll rest with
          | .error fault => .error fault
          | .ok texts => .ok (text :: texts)

end

mutual

/-- The number of levels of a value: those of the tree of a function, and so many for every array. -/
def depth (perArray : Nat) : Value → Nat
  | .array _ es => depthAll perArray es + perArray
  | .function _ _ b _ => b.height + 1
  | .returned v => depth perArray v + 1
  | _ => 1

/-- The depth of the deepest value of a list. -/
def depthAll (perArray : Nat) : List Value → Nat
  | [] => 0
  | v :: rest => max (depth perArray v) (depthAll perArray rest)

end

/-- The text of a value that has no more levels than the limit. -/
def inspectWithin (limit : Nat) (v : Value) : Except Fault String :=
  if v.depth 1 ≤ limit then v.inspect else .error .tooDeep

mutual

/-- How a value is made up. -/
def describe : Value → String
  | .nothing => "None"
  | .integer _ n => "Integer(value=" ++ toString n.toInt ++ ")"
  | .boolean b => "Boolean(value=" ++ (if b then "True" else "False") ++ ")"
  | .null => "Null()"
  | .array _ es => "Array(elements=[" ++ ", ".intercalate (describeAll es) ++ "])"
  | .function _ ps b _ => "Function(" ++ Text.quoted (functionText ps b) ++ ")"
  | .returned v => "ReturnValue(value=" ++ describe v ++ ")"
  | .error failure => "Error(message=" ++ Text.quoted failure.message ++ ")"
  | .unspecified _ => "Value()"

/-- How the values of a list are made up. -/
def describeAll : List Value → List String
  | [] => []
  | v :: rest => describe v :: describeAll rest

end

/-- How a value that has no more levels than the limit is made up; an array and the list of its
elements are two levels. -/
def describeWithin (limit : Nat) (v : Value) : Except Fault String :=
  if v.depth 2 ≤ limit then .ok v.describe else .error .tooDeep

end Value

end ExprLang
