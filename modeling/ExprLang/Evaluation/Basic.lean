import ExprLang.Evaluation.Machine
import ExprLang.Limits

/-!
# Running trees

A tree is run node by node in a scope. Operands, arguments and elements are run from left to right,
and the first marker among them ends the node that they belong to.

## Implementation notes

`step` runs one node and takes the way to run the nodes below it as an argument; `visit` ties the
knot and uses up one level for every node, whatever its construct is. Lists of arguments and
applications of functions use up none of their own; the notes on limits of nesting say how levels
stand for calls.
-/

namespace ExprLang

namespace Eval

section Step

variable (visit : Node → ScopeId → Eval Value)

/-- Goes on with the value of a node unless it is a marker. -/
def visitThen (n : Node) (scope : ScopeId) (next : Value → Eval Value) : Eval Value := do
  let value ← visit n scope
  if value.isMarker then return value else next value

/-- Runs the statements of a block: the value of the last one, or the first marker. -/
def blockStatements (scope : ScopeId) : List Node → (last : Value) → Eval Value
  | [], last => return last
  | s :: rest, _ => visitThen visit s scope fun value => blockStatements scope rest value

/-- Runs the statements of a program, where a return gives its value. -/
def programStatements (scope : ScopeId) : List Node → (last : Value) → Eval Value
  | [], last => return last
  | s :: rest, _ => do
      match ← visit s scope with
      | .returned value => return value
      | .error failure => return .error failure
      | value => programStatements scope rest value

/-- Runs expressions from left to right: their values, or the first marker. -/
def expressions (scope : ScopeId) : List Node → Eval (Except Value (List Value))
  | [] => return .ok []
  | e :: rest => do
      let value ← visit e scope
      if value.isMarker then
        return .error value
      else
        match ← expressions scope rest with
        | .error marker => return .error marker
        | .ok values => return .ok (value :: values)

/-- Applies a function to arguments: its body is run in a new scope inside the one that the function
was made in. Arguments without a parameter are ignored, parameters without an argument are not
bound. -/
def apply (callee : Value) (arguments : List Value) : Eval Value := do
  note .applied
  match callee with
  | .nothing => throw .missingValue
  | .function _ parameters body scope =>
      let inner ← enclose scope
      bindParameters inner parameters arguments
      match ← visit body inner with
      | .returned value => return value
      | value => return value.orNull
  | value => fail (.notAFunction value.kind)

/-- Runs one node. -/
def step (n : Node) (scope : ScopeId) : Eval Value :=
  match n with
  | .program ss _ => programStatements visit scope ss .nothing
  | .block ss _ => blockStatements visit scope ss .nothing
  | .letBinding name v _ =>
      visitThen visit v scope fun value => do
        bindName scope name.text value
        return .nothing
  | .returning v _ => visitThen visit v scope fun value => return .returned value
  | .evaluated e _ => visit e scope
  | .identifier name _ => lookUp scope name
  | .integer v _ => newInteger (Int64.ofInt v)
  | .boolean b _ => return .boolean b
  | .array es _ => do
      match ← expressions visit scope es with
      | .error marker => return marker
      | .ok values => return .array (← newIdentity) values
  | .unary operator e _ =>
      visitThen visit e scope fun operand => conclude (Value.applyPrefix operator operand)
  | .binary l operator r _ =>
      visitThen visit l scope fun left =>
        visitThen visit r scope fun right =>
          conclude (Value.applyInfix (left.isIdentical right) left operator right)
  | .ifThen c t _ =>
      visitThen visit c scope fun condition => do
        if condition.isTruthy then return (← visit t scope).orNull else return .null
  | .ifElse c t e _ =>
      visitThen visit c scope fun condition => do
        if condition.isTruthy then return (← visit t scope).orNull
        else return (← visit e scope).orNull
  | .function ps b _ => do
      return .function (← newIdentity) ps b scope
  | .call f es _ =>
      visitThen visit f scope fun callee => do
        match ← expressions visit scope es with
        | .error marker => return marker
        | .ok arguments => apply visit callee arguments
  | .index l i _ =>
      visitThen visit l scope fun collection =>
        visitThen visit i scope fun position =>
          conclude (Value.elementAt collection position)
  | .placeholder _ => return .nothing

end Step

/-- Runs a node with at most `depth` levels of nodes. -/
def visit : (depth : Nat) → Node → ScopeId → Eval Value
  | 0, _, _ => throw .tooDeep
  | depth + 1, n, scope => step (visit depth) n scope

/-- Runs a tree with at most `depth` levels; a run that is nested too deeply gives an error. -/
def evaluateWithin (depth : Nat) (n : Node) (scope : ScopeId) : Eval Value := fun m =>
  match visit depth n scope m with
  | .error .tooDeep m' => fail .nestedTooDeep m'
  | result => result

/-- Runs a tree. -/
def evaluate (n : Node) (scope : ScopeId) : Eval Value :=
  evaluateWithin nestingLimit n scope

end Eval

end ExprLang
