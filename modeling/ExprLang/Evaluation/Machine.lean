import ExprLang.Evaluation.Operator
import ExprLang.Fault
import ExprLang.Scope

/-!
# The state of a run

A run changes scopes, gives identities to new values, and keeps a journal of what it does: which
names it looked up and bound, which operators and functions it applied, and which error it made.
-/

namespace ExprLang

/-- What a run did. -/
inductive Event where
  /-- A name was looked up. -/
  | lookedUp (scope : ScopeId) (name : String)
  /-- A name was bound. -/
  | bound (scope : ScopeId) (name : String)
  /-- An operator was applied, or an array was indexed. -/
  | operated
  /-- A function was applied. -/
  | applied
  /-- A runtime error was made. -/
  | failed (failure : Failure)
deriving DecidableEq, Repr

/-- The state of a run. -/
structure Machine where
  scopes : Scopes := {}
  /-- The number of identities given so far. -/
  identities : Nat := 0
  /-- What was done so far, the latest first. -/
  journal : List Event := []
deriving Inhabited

/-- A machine with one scope, of number zero. -/
def Machine.initial : Machine :=
  { scopes := (Scopes.root {}).2 }

/-- A step of a run. A fault leaves the state as it was when the fault arose. -/
abbrev Eval := EStateM Fault Machine

namespace Eval

/-- Writes an event into the journal. -/
def note (event : Event) : Eval Unit :=
  modify fun m => { m with journal := event :: m.journal }

/-- Makes a runtime error. -/
def fail (failure : Failure) : Eval Value := do
  note (.failed failure)
  return .error failure

/-- A new identity. -/
def newIdentity : Eval Nat :=
  modifyGet fun m => (m.identities, { m with identities := m.identities + 1 })

/-- A new integer. -/
def newInteger (value : Int64) : Eval Value := do
  return .integer (← newIdentity) value

/-- A new scope inside a given one. -/
def enclose (scope : ScopeId) : Eval ScopeId :=
  modifyGet fun m =>
    let added := m.scopes.enclose scope
    (added.1, { m with scopes := added.2 })

/-- Binds a name in a scope. -/
def bindName (scope : ScopeId) (name : String) (value : Value) : Eval Unit := do
  note (.bound scope name)
  modify fun m => { m with scopes := m.scopes.bind scope name value }

/-- Binds parameters to arguments in order, as far as there are both. -/
def bindParameters (scope : ScopeId) : List Name → List Value → Eval Unit
  | name :: names, value :: values => do
      bindName scope name.text value
      bindParameters scope names values
  | _, _ => return ()

/-- The value of a name, or the error that it has none. -/
def lookUp (scope : ScopeId) (name : String) : Eval Value := do
  note (.lookedUp scope name)
  match (← get).scopes.lookup scope name with
  | .nothing => fail (.unboundIdentifier name)
  | value => return value

/-- The outcome of an operator as a step. -/
def conclude : OperatorResult → Eval Value
  | .done value => do
      note .operated
      return value
  | .number value => do
      note .operated
      newInteger value
  | .failed failure => do
      note .operated
      fail failure
  | .missing => throw .missingValue

end Eval

end ExprLang
