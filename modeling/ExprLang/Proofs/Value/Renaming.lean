import ExprLang.Evaluation.Operator
import ExprLang.Proofs.Value.Part
import ExprLang.Scope
import ExprLang.Value.Display

/-!
# Renaming scopes and identities

A renaming gives other numbers to scopes and identities, different ones to different ones. It does
not change what can be seen of a value: its kind, its text and how deep it is; and operators commute
with it, since two values are identical exactly if they are so under their new numbers.
-/

namespace ExprLang

/-- New numbers for scopes and identities. -/
structure Renaming where
  scope : ScopeId → ScopeId
  identity : Nat → Nat
  scope_injective : ∀ {a b}, scope a = scope b → a = b
  identity_injective : ∀ {a b}, identity a = identity b → a = b

namespace Renaming

variable (r : Renaming)

mutual

/-- A value under its new numbers. -/
def value : Value → Value
  | .integer identity n => .integer (r.identity identity) n
  | .array identity es => .array (r.identity identity) (values es)
  | .function identity ps b scope => .function (r.identity identity) ps b (r.scope scope)
  | .returned v => .returned (value v)
  | .unspecified identity => .unspecified (r.identity identity)
  | .boolean b => .boolean b
  | .null => .null
  | .nothing => .nothing
  | .error failure => .error failure

/-- The values of a list under their new numbers. -/
def values : List Value → List Value
  | [] => []
  | v :: rest => value v :: values rest

end

theorem values_eq_map (vs : List Value) : r.values vs = vs.map r.value := by
  induction vs with
  | nil => rfl
  | cons v rest ih => rw [values, ih, List.map_cons]

/-! ### What can be seen of a value -/

@[simp] theorem kind_value (v : Value) : (r.value v).kind = v.kind := by
  cases v <;> rfl

@[simp] theorem isMarker_value (v : Value) : (r.value v).isMarker = v.isMarker := by
  cases v <;> rfl

@[simp] theorem isTruthy_value (v : Value) : (r.value v).isTruthy = v.isTruthy := by
  cases v with
  | boolean b => cases b <;> rfl
  | _ => rfl

@[simp] theorem orNull_value (v : Value) : (r.value v).orNull = r.value v.orNull := by
  cases v <;> rfl

theorem beq_identity (a b : Nat) : (r.identity a == r.identity b) = (a == b) := by
  rw [Bool.eq_iff_iff, beq_iff_eq, beq_iff_eq]
  exact ⟨r.identity_injective, fun h => congrArg r.identity h⟩

@[simp] theorem isIdentical_value (v w : Value) :
    (r.value v).isIdentical (r.value w) = v.isIdentical w := by
  cases v <;> cases w <;> simp [value, Value.isIdentical, beq_identity]

mutual

@[simp] theorem inspect_value (v : Value) : (r.value v).inspect = v.inspect := by
  cases v with
  | array identity es => simp [value, Value.inspect, inspectAll_values]
  | returned u => simp [value, Value.inspect, inspect_value]
  | _ => simp [value, Value.inspect]

theorem inspectAll_values (vs : List Value) :
    Value.inspectAll (r.values vs) = Value.inspectAll vs := by
  cases vs with
  | nil => rfl
  | cons v rest => simp [values, Value.inspectAll, inspect_value, inspectAll_values]

end

mutual

@[simp] theorem depth_value (perArray : Nat) (v : Value) :
    (r.value v).depth perArray = v.depth perArray := by
  cases v with
  | array identity es => simp [value, Value.depth, depthAll_values]
  | returned u => simp [value, Value.depth, depth_value]
  | _ => simp [value, Value.depth]

theorem depthAll_values (perArray : Nat) (vs : List Value) :
    Value.depthAll perArray (r.values vs) = Value.depthAll perArray vs := by
  cases vs with
  | nil => rfl
  | cons v rest => simp [values, Value.depthAll, depth_value, depthAll_values]

end

theorem inspectWithin_value (limit : Nat) (v : Value) :
    (r.value v).inspectWithin limit = v.inspectWithin limit := by
  simp [Value.inspectWithin]

mutual

/-- A renaming that leaves the numbers in use as they are leaves a value as it is. -/
theorem value_eq_self {scopes identities : Nat} (hs : ∀ id < scopes, r.scope id = id)
    (hi : ∀ identity < identities, r.identity identity = identity) (v : Value)
    (hv : v.All (Value.IsWithin scopes identities)) : r.value v = v := by
  cases v with
  | integer identity n => rw [value, hi identity hv.self]
  | array identity es =>
      obtain ⟨hid, hes⟩ := Value.all_array.mp hv
      rw [value, hi identity hid, values_eq_self hs hi es hes]
  | function identity ps b scope => rw [value, hi identity hv.self.1, hs scope hv.self.2]
  | returned u => rw [value, value_eq_self hs hi u (Value.all_returned.mp hv).2]
  | unspecified identity => rw [value, hi identity hv.self]
  | _ => rfl

theorem values_eq_self {scopes identities : Nat} (hs : ∀ id < scopes, r.scope id = id)
    (hi : ∀ identity < identities, r.identity identity = identity) (vs : List Value)
    (hvs : ∀ v ∈ vs, v.All (Value.IsWithin scopes identities)) : r.values vs = vs := by
  cases vs with
  | nil => rfl
  | cons v rest =>
      rw [values, value_eq_self hs hi v (hvs v (by simp)),
        values_eq_self hs hi rest fun w hw => hvs w (by simp [hw])]

end

/-! ### Operators -/

/-- What an operator gives, under its new numbers. -/
def result : OperatorResult → OperatorResult
  | .done v => .done (r.value v)
  | .number n => .number n
  | .failed failure => .failed failure
  | .missing => .missing

theorem result_integerInfix (a : Int64) (operator : Token) (b : Int64) :
    r.result (Value.integerInfix a operator b) = Value.integerInfix a operator b := by
  unfold Value.integerInfix
  simp only
  split
  case h_4 => split <;> rfl
  all_goals rfl

theorem applyPrefix_value (operator : Token) (v : Value) :
    Value.applyPrefix operator (r.value v) = r.result (Value.applyPrefix operator v) := by
  unfold Value.applyPrefix
  split
  · rw [isTruthy_value]
    rfl
  · cases v <;> rfl
  · cases v <;> rfl

theorem result_applyInfix (identical : Bool) (v : Value) (operator : Token) (w : Value) :
    r.result (Value.applyInfix identical v operator w) =
      Value.applyInfix identical v operator w := by
  unfold Value.applyInfix
  split
  · rfl
  · rfl
  · exact r.result_integerInfix _ operator _
  · split
    · rfl
    · split <;> rfl

theorem applyInfix_value (identical : Bool) (v : Value) (operator : Token) (w : Value) :
    Value.applyInfix identical (r.value v) operator (r.value w) =
      r.result (Value.applyInfix identical v operator w) := by
  rw [result_applyInfix]
  cases v <;> cases w <;> rfl

theorem elementAt_value (v w : Value) :
    Value.elementAt (r.value v) (r.value w) = r.result (Value.elementAt v w) := by
  cases v with
  | array identity es =>
      cases w with
      | integer position n =>
          simp only [value, Value.elementAt]
          split
          · rfl
          · rw [values_eq_map, List.getElem?_map]
            cases es[n.toInt.toNat]? <;> rfl
      | _ => rfl
  | _ => rfl

/-! ### Scopes -/

/-- The contents of a scope under their new numbers. -/
def contents (s : Scope) : Scope where
  outer := s.outer.map r.scope
  bindings := s.bindings.map fun b => (b.1, r.value b.2)

theorem contents_bind (s : Scope) (name : String) (v : Value) :
    r.contents (s.bind name v) = (r.contents s).bind name (r.value v) := by
  simp [contents, Scope.bind, List.filter_map, Function.comp_def]

theorem lookup_contents (s : Scope) (name : String) :
    (r.contents s).bindings.lookup name = (s.bindings.lookup name).map r.value := by
  simp only [contents]
  induction s.bindings with
  | nil => rfl
  | cons b rest ih =>
      obtain ⟨bound, v⟩ := b
      rw [List.map_cons, List.lookup_cons, List.lookup_cons]
      cases name == bound with
      | true => rfl
      | false => exact ih

end Renaming

end ExprLang
