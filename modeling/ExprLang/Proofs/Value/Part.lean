import ExprLang.Value.Basic

/-!
# Parts of values

The parts of a value are the value itself, the elements of an array and what a return carries, and
the parts of these. A value is within the numbers in use if every scope and identity among its parts
has been given out.
-/

namespace ExprLang

namespace Value

/-- The values right inside a value. -/
def inside : Value → List Value
  | .array _ es => es
  | .returned v => [v]
  | _ => []

/-- A value is a part of itself and of every value that it is inside of. -/
inductive Part : Value → Value → Prop where
  | whole (v : Value) : Part v v
  | inside {u w v : Value} (hw : w ∈ v.inside) (h : Part u w) : Part u v

/-- A property of all parts of a value. -/
def All (p : Value → Prop) (v : Value) : Prop :=
  ∀ u, Part u v → p u

variable {p q : Value → Prop} {v : Value}

theorem all_iff : v.All p ↔ p v ∧ ∀ w ∈ v.inside, w.All p := by
  constructor
  · intro h
    exact ⟨h v (.whole v), fun w hw u hu => h u (.inside hw hu)⟩
  · rintro ⟨hv, hw⟩ u hu
    cases hu with
    | whole => exact hv
    | inside hm hu => exact hw _ hm u hu

theorem All.self (h : v.All p) : p v :=
  h v (.whole v)

theorem All.mono (h : v.All p) (hpq : ∀ u, p u → q u) : v.All q :=
  fun u hu => hpq u (h u hu)

theorem all_array {identity : Nat} {es : List Value} :
    (array identity es).All p ↔ p (.array identity es) ∧ ∀ e ∈ es, e.All p :=
  all_iff

theorem all_returned {u : Value} : (returned u).All p ↔ p (.returned u) ∧ u.All p := by
  rw [all_iff]
  simp [inside]

/-- A value with nothing inside has no part but itself. -/
theorem all_of_inside_nil (h : v.inside = []) : v.All p ↔ p v := by
  rw [all_iff, h]
  simp

@[simp] theorem all_integer {identity : Nat} {n : Int64} :
    (integer identity n).All p ↔ p (.integer identity n) := all_of_inside_nil rfl

@[simp] theorem all_boolean {b : Bool} : (boolean b).All p ↔ p (.boolean b) :=
  all_of_inside_nil rfl

@[simp] theorem all_null : null.All p ↔ p .null := all_of_inside_nil rfl

@[simp] theorem all_nothing : nothing.All p ↔ p .nothing := all_of_inside_nil rfl

@[simp] theorem all_function {identity : Nat} {ps : List Name} {b : Node} {scope : ScopeId} :
    (function identity ps b scope).All p ↔ p (.function identity ps b scope) :=
  all_of_inside_nil rfl

@[simp] theorem all_error {failure : Failure} : (error failure).All p ↔ p (.error failure) :=
  all_of_inside_nil rfl

/-! ### Numbers in use -/

/-- A value whose scope and identity have been given out. -/
def IsWithin (scopes identities : Nat) : Value → Prop
  | .integer identity _ | .array identity _ | .unspecified identity => identity < identities
  | .function identity _ _ scope => identity < identities ∧ scope < scopes
  | _ => True

end Value

end ExprLang
