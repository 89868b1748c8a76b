import ExprLang.Value.Basic

/-!
# Scopes

A scope binds names to values and knows the scopes that it is nested in, the nearest first. A name
is looked up outward until a scope binds it, so a nearer binding hides those further out. Scopes
are never copied: what is bound in a scope later is seen by all scopes inside it.

## Implementation notes

All scopes of a run are kept together and are referred to by their numbers.
-/

namespace ExprLang

/-- The bindings of one scope, and the scopes around it. -/
structure Scope where
  outer : List ScopeId := []
  bindings : List (String × Value) := []
deriving Inhabited

/-- Binds a name anew. -/
def Scope.bind (s : Scope) (name : String) (value : Value) : Scope :=
  { s with bindings := (name, value) :: s.bindings.filter fun b => b.1 != name }

/-- All scopes of a run. -/
structure Scopes where
  all : Array Scope := #[]
deriving Inhabited

namespace Scopes

/-- The scope of a number. -/
def get (s : Scopes) (id : ScopeId) : Scope :=
  s.all[id]?.getD {}

/-- A scope and the scopes around it, the nearest first. -/
def chain (s : Scopes) (id : ScopeId) : List ScopeId :=
  id :: (s.get id).outer

/-- Adds a scope, which gets the next number. -/
def add (s : Scopes) (scope : Scope) : ScopeId × Scopes :=
  (s.all.size, ⟨s.all.push scope⟩)

/-- Adds a scope that is nested in no other. -/
def root (s : Scopes) : ScopeId × Scopes :=
  s.add {}

/-- Adds a scope that is nested in a given one. -/
def enclose (s : Scopes) (id : ScopeId) : ScopeId × Scopes :=
  s.add { outer := s.chain id }

/-- Binds a name in a scope. -/
def bind (s : Scopes) (id : ScopeId) (name : String) (value : Value) : Scopes :=
  ⟨s.all.modify id fun scope => scope.bind name value⟩

/-- The value of a name in the first of some scopes that binds it. -/
def findIn (s : Scopes) (name : String) : List ScopeId → Value
  | [] => .nothing
  | id :: rest =>
      match (s.get id).bindings.lookup name with
      | some value => value
      | none => findIn s name rest

/-- The value of a name, looked up outward from a scope; nothing if no scope binds it. -/
def lookup (s : Scopes) (id : ScopeId) (name : String) : Value :=
  s.findIn name (s.chain id)

/-- Whether a name has a value, looked up outward from a scope. -/
def isBound (s : Scopes) (id : ScopeId) (name : String) : Bool :=
  !(s.lookup id name).isNothing

/-- The names bound in a scope itself, in order. -/
def names (s : Scopes) (id : ScopeId) : List String :=
  ((s.get id).bindings.map (·.1)).mergeSort fun a b => decide (a ≤ b)

end Scopes

end ExprLang
