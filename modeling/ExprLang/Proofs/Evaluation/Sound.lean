import ExprLang.Proofs.Evaluation.Operator
import ExprLang.Proofs.Evaluation.Run
import ExprLang.Proofs.Syntax.WellFormed

/-!
# Runs of well-formed trees

A scope or an array only ever holds proper values: integers, booleans, null, arrays of proper values
and functions with a well-formed body. A run of a well-formed tree keeps it so, however it ends, and
ends without a fault unless it is nested too deeply. What it gives depends on the place that the
tree can stand at.

## Implementation notes

No value, an error and a return travel as values too, and each step looks for them by hand.
`Yields` is the contract of a step: from a good machine it ends in a good machine with a value of
some property. It composes, so the contract of a node follows from those of the nodes below it.
-/

namespace ExprLang

namespace Value

/-- A value that may be bound or be an element; what is inside an array is looked at apart. -/
def IsProper : Value → Prop
  | .integer _ n => -9223372036854775808 ≤ n.toInt ∧ n.toInt ≤ 9223372036854775807
  | .boolean _ | .null | .array _ _ => True
  | .function _ parameters body _ =>
      (∀ p ∈ parameters, Text.isIdentifier p.text = true) ∧ body.WellFormed .block
  | .nothing | .returned _ | .error _ | .unspecified _ => False

/-- A value that may be bound or be an element, with everything inside it. -/
def Proper (v : Value) : Prop :=
  v.All IsProper

/-- What running a tree may give, by the place that the tree can stand at. -/
inductive Outcome : Node.Role → Value → Prop where
  | proper {role : Node.Role} {v : Value} (hv : v.Proper) : Outcome role v
  | error {role : Node.Role} (failure : Failure) : Outcome role (.error failure)
  | returned {role : Node.Role} {v : Value} (hr : role ≠ .program) (hv : v.Proper) :
      Outcome role (.returned v)
  | nothing {role : Node.Role} (hr : role ≠ .expression) : Outcome role .nothing

theorem proper_integer (identity : Nat) (n : Int64) : (integer identity n).Proper := by
  have hlow := n.le_toInt
  have hhigh := n.toInt_lt
  rw [Proper, all_integer]
  constructor <;> omega

theorem proper_boolean (b : Bool) : (boolean b).Proper := by
  simp [Proper, IsProper]

theorem proper_null : null.Proper := by
  simp [Proper, IsProper]

theorem proper_array {identity : Nat} {es : List Value} :
    (array identity es).Proper ↔ ∀ e ∈ es, e.Proper := by
  simp [Proper, all_array, IsProper]

theorem Proper.isMarker {v : Value} (h : v.Proper) : v.isMarker = false := by
  cases v with
  | returned u => exact h.self.elim
  | error failure => exact h.self.elim
  | _ => rfl

theorem not_proper_nothing : ¬ nothing.Proper :=
  fun h => h.self

/-- A step that a marker does not end goes on with a proper value. -/
theorem Outcome.expression_proper {v : Value} (h : v.Outcome .expression)
    (hm : v.isMarker = false) : v.Proper := by
  cases h with
  | proper hv => exact hv
  | error failure => cases hm
  | returned hr hv => cases hm
  | nothing hr => exact absurd rfl hr

/-- A marker may leave every place but a program. -/
theorem Outcome.of_isMarker {role role' : Node.Role} {v : Value} (h : v.Outcome role)
    (hm : v.isMarker = true) (hr : role' ≠ .program) : v.Outcome role' := by
  cases h with
  | proper hv => rw [hv.isMarker] at hm; cases hm
  | error failure => exact .error failure
  | returned _ hv => exact .returned hr hv
  | nothing _ => cases hm

theorem Outcome.weaken {role role' : Node.Role} {v : Value} (h : v.Outcome role)
    (hp : role ≠ .program → role' ≠ .program) (he : role ≠ .expression → role' ≠ .expression) :
    v.Outcome role' := by
  cases h with
  | proper hv => exact .proper hv
  | error failure => exact .error failure
  | returned hr hv => exact .returned (hp hr) hv
  | nothing hr => exact .nothing (he hr)

/-- The value of a branch makes an expression of it. -/
theorem Outcome.orNull {v : Value} (h : v.Outcome .block) : v.orNull.Outcome .expression := by
  cases h with
  | proper hv =>
      cases v with
      | nothing => exact absurd hv not_proper_nothing
      | _ => exact .proper hv
  | error failure => exact .error failure
  | returned _ hv => exact .returned (by decide) hv
  | nothing _ => exact .proper proper_null

/-- A call gives a proper value or an error. -/
theorem Outcome.delivered {role : Node.Role} {v : Value} (h : v.Outcome role) :
    v.delivered.Proper ∨ v.delivered.isError = true := by
  cases h with
  | proper hv =>
      cases v with
      | nothing => exact absurd hv not_proper_nothing
      | returned u => exact hv.self.elim
      | _ => exact .inl hv
  | error failure => exact .inr rfl
  | returned _ hv => exact .inl hv
  | nothing _ => exact .inl proper_null

theorem Outcome.of_answer {role : Node.Role} {v : Value} (h : v.Proper ∨ v.isError = true) :
    v.Outcome role := by
  rcases h with hv | he
  · exact .proper hv
  · cases v with
    | error failure => exact .error failure
    | _ => cases he

end Value

/-- Every value that is bound in a scope is proper. -/
def Machine.Good (m : Machine) : Prop :=
  ∀ id, ∀ b ∈ (m.scopes.get id).bindings, b.2.Proper

theorem Machine.good_iff {m : Machine} :
    m.Good ↔ m.BindsOnly (fun _ => True) Value.IsProper := by
  simp [Good, BindsOnly, Value.Proper]

theorem Machine.Good.isMarker {m : Machine} (h : m.Good) (id : ScopeId) :
    ∀ b ∈ (m.scopes.get id).bindings, b.2.All fun u => u.isMarker = false := by
  intro b hb
  refine (h id b hb).mono fun u hu => ?_
  cases u with
  | returned v => exact hu.elim
  | error failure => exact hu.elim
  | _ => rfl

namespace Eval

open Value (Proper Outcome)
open Node (WellFormed)

section Yields

variable {α β : Type}

/-- From a good machine a step ends in a good machine with a value of some property, or is nested
too deeply. -/
def Yields (allowed : α → Prop) (step : Eval α) : Prop :=
  ∀ m : Machine, m.Good →
    Ends step m (fun a m' => m'.Good ∧ allowed a) (fun fault m' => fault = .tooDeep ∧ m'.Good)

variable {p : α → Prop} {q : β → Prop}

theorem Yields.pure {a : α} (h : p a) : Yields p (pure a) :=
  fun _ hm => ⟨hm, h⟩

theorem Yields.bind {step : Eval α} {f : α → Eval β} (hs : Yields p step)
    (hf : ∀ a, p a → Yields q (f a)) : Yields q (step >>= f) := by
  intro m hm
  rw [ends_bind]
  exact (hs m hm).imp fun a m' h => hf a h.2 m' h.1

theorem Yields.imp {p' : α → Prop} {step : Eval α} (hs : Yields p step) (h : ∀ a, p a → p' a) :
    Yields p' step :=
  fun m hm => (hs m hm).imp fun a _ ha => ⟨ha.1, h a ha.2⟩

end Yields

/-! ### Primitive steps -/

theorem yields_newIdentity : Yields (fun _ => True) newIdentity := by
  intro m hm
  rw [ends_newIdentity]
  exact ⟨hm, trivial⟩

theorem yields_newInteger (n : Int64) : Yields Proper (newInteger n) := by
  intro m hm
  rw [ends_newInteger]
  exact ⟨hm, Value.proper_integer m.identities n⟩

theorem yields_bindName (scope : ScopeId) (name : String) {value : Value} (hv : value.Proper) :
    Yields (fun _ => True) (bindName scope name value) := by
  intro m hm
  rw [ends_bindName]
  exact ⟨Machine.good_iff.mpr ((Machine.good_iff.mp hm).binding scope name hv), trivial⟩

theorem yields_lookUp (scope : ScopeId) (name : String) :
    Yields (Outcome .expression) (lookUp scope name) := by
  intro m hm
  rw [ends_lookUp]
  by_cases hn : (m.scopes.lookup scope name).isNothing
  · rw [if_pos hn]
    exact ⟨hm, .error _⟩
  · rw [if_neg hn]
    have hl := (Machine.good_iff.mp hm).lookup (fun _ _ => trivial) (Bool.eq_false_iff.mpr hn)
    exact ⟨hm, .proper hl⟩

/-- Operators on proper values give a proper value or an error. -/
theorem yields_conclude {operands : List Value} {result : OperatorResult}
    (hr : result.Of operands) (ho : ∀ v ∈ operands, v.Proper) :
    Yields (Outcome .expression) (conclude result) := by
  intro m hm
  rw [ends_conclude]
  cases hr with
  | boolean b => exact ⟨hm, .proper (Value.proper_boolean b)⟩
  | null => exact ⟨hm, .proper Value.proper_null⟩
  | number n => exact ⟨hm, .proper (Value.proper_integer _ n)⟩
  | failed failure => exact ⟨hm, .error failure⟩
  | element ha he => exact ⟨hm, .proper (Value.proper_array.mp (ho _ ha) _ he)⟩
  | missing hn => exact absurd (ho _ hn) Value.not_proper_nothing

/-! ### Nodes -/

section Nodes

variable {visit : Node → ScopeId → Eval Value} {scope : ScopeId} {role : Node.Role}

theorem yields_visitThen {n : Node} {next : Value → Eval Value}
    (hn : Yields (Outcome .expression) (visit n scope)) (hr : role ≠ .program)
    (hnext : ∀ v, v.Proper → Yields (Outcome role) (next v)) :
    Yields (Outcome role) (visitThen visit n scope next) := by
  intro m hm
  rw [ends_visitThen]
  refine (hn m hm).imp ?_
  rintro v m' ⟨hg, ho⟩
  by_cases hk : v.isMarker = true
  · rw [if_pos hk]
    exact ⟨hg, ho.of_isMarker hk hr⟩
  · rw [if_neg hk]
    exact hnext v (ho.expression_proper (Bool.eq_false_iff.mpr hk)) m' hg

/-- The values of expressions are proper, or else a marker is met. -/
theorem yields_expressions {es : List Node}
    (he : ∀ e ∈ es, Yields (Outcome .expression) (visit e scope)) :
    Yields (fun r => match r with
      | .error marker => marker.Outcome .expression
      | .ok values => ∀ v ∈ values, v.Proper) (expressions visit scope es) := by
  intro m hm
  have hrounds : ∀ e ∈ es, ∀ (values : List Value) (m : Machine),
      (m.Good ∧ ∀ v ∈ values, v.Proper) →
      Ends (visit e scope) m
        (fun v m' => if v.isMarker then m'.Good ∧ v.Outcome .expression
          else m'.Good ∧ ∀ u ∈ values ++ [v], u.Proper)
        (fun fault m' => fault = .tooDeep ∧ m'.Good) := by
    rintro e hmem values m ⟨hm, hvalues⟩
    refine (he e hmem m hm).imp ?_
    rintro v m' ⟨hg, ho⟩
    by_cases hk : v.isMarker = true
    · rw [if_pos hk]
      exact ⟨hg, ho⟩
    · rw [if_neg hk]
      refine ⟨hg, List.forall_mem_append.mpr ⟨hvalues, ?_⟩⟩
      simpa using ho.expression_proper (Bool.eq_false_iff.mpr hk)
  refine (ends_expressions (fun values m => m.Good ∧ ∀ v ∈ values, v.Proper) hrounds
    ⟨hm, List.forall_mem_nil _⟩).imp ?_
  rintro (marker | values) m' h <;> exact h

theorem yields_blockStatements {ss : List Node}
    (hs : ∀ s ∈ ss, Yields (Outcome .statement) (visit s scope)) :
    Yields (Outcome .block) (blockStatements visit scope ss .nothing) := by
  intro m hm
  refine ends_blockStatements (fun v m' => m'.Good ∧ v.Outcome .block) ?_
    (fun v m' h => h) ⟨hm, .nothing (by decide)⟩
  rintro s hmem last m ⟨hm, -⟩
  refine (hs s hmem m hm).imp ?_
  rintro v m' ⟨hg, ho⟩
  have hb : v.Outcome .block := ho.weaken (fun _ => by decide) (fun _ => by decide)
  simpa using ⟨hg, hb⟩

theorem yields_programStatements {ss : List Node}
    (hs : ∀ s ∈ ss, Yields (Outcome .statement) (visit s scope)) :
    Yields (Outcome .program) (programStatements visit scope ss .nothing) := by
  intro m hm
  refine ends_programStatements (fun v m' => m'.Good ∧ v.Outcome .program) ?_
    (fun v m' h => h) ⟨hm, .nothing (by decide)⟩
  rintro s hmem last m ⟨hm, -⟩
  refine (hs s hmem m hm).imp ?_
  rintro v m' ⟨hg, ho⟩
  by_cases hk : v.isMarker = true
  · rw [if_pos hk]
    exact ⟨hg, .of_answer ho.delivered⟩
  · rw [if_neg hk]
    cases ho with
    | proper hv => exact ⟨hg, .proper hv⟩
    | error failure => exact absurd rfl hk
    | returned _ hv => exact absurd rfl hk
    | nothing _ => exact ⟨hg, .nothing (by decide)⟩

/-- A proper value applied to proper arguments gives a proper value or an error. -/
theorem yields_apply
    (hv : ∀ n scope, n.WellFormed .block → Yields (Outcome .block) (visit n scope))
    {callee : Value} (hc : callee.Proper) {arguments : List Value}
    (ha : ∀ a ∈ arguments, a.Proper) :
    Yields (fun v => v.Proper ∨ v.isError = true) (apply visit callee arguments) := by
  intro m hm
  rw [ends_apply]
  cases callee with
  | nothing => exact absurd hc Value.not_proper_nothing
  | function identity parameters body inside =>
      have hbody : body.WellFormed .block := hc.self.2
      have hbind : ∀ (name : String) (value : Value) (m' : Machine), value ∈ arguments →
          m'.Good → (m'.binding m.scopes.count name value).Good := by
        intro name value m' hmem hg
        exact Machine.good_iff.mpr ((Machine.good_iff.mp hg).binding _ name (ha value hmem))
      have hinner : ((m.noting .applied).enclosing inside).Good :=
        Machine.good_iff.mpr ((Machine.good_iff.mp hm).enclosing inside)
      refine (ends_bindParameters Machine.Good hbind hinner).imp ?_
      intro _ m' hg
      exact (hv body m.scopes.count hbody m' hg).imp fun v m'' h => ⟨h.1, h.2.delivered⟩
  | _ => exact ⟨hm, .inr rfl⟩

/-- One node yields what its place allows if the nodes below it do. -/
theorem yields_step
    (hv : ∀ role n scope, n.WellFormed role → Yields (Outcome role) (visit n scope))
    {n : Node} (hn : n.WellFormed role) (scope : ScopeId) :
    Yields (Outcome role) (step visit n scope) := by
  have hexpr : ∀ {e : Node}, e.WellFormed .expression →
      Yields (Outcome .expression) (visit e scope) := fun he => hv .expression _ scope he
  have hbranch : ∀ {b : Node}, b.WellFormed .block →
      Yields (Outcome .expression) (do return (← visit b scope).orNull) := by
    intro b hb
    exact (hv .block b scope hb).bind fun v ho => .pure ho.orNull
  -- the rules for well-formed trees say at which place each node below stands
  cases hn with
  | program hs => exact yields_programStatements fun s hm => hv .statement s scope (hs s hm)
  | block hs => exact yields_blockStatements fun s hm => hv .statement s scope (hs s hm)
  | letBinding hname hvalue =>
      refine yields_visitThen (hexpr hvalue) (by decide) fun value hp => ?_
      exact (yields_bindName scope _ hp).bind fun _ _ => .pure (.nothing (by decide))
  | returning hvalue =>
      exact yields_visitThen (hexpr hvalue) (by decide) fun value hp =>
        .pure (.returned (by decide) hp)
  | evaluated he =>
      exact (hexpr he).imp fun v ho => ho.weaken (fun _ => by decide) (absurd rfl)
  | identifier hname => exact yields_lookUp scope _
  | integer h₀ h₁ => exact (yields_newInteger _).imp fun v hp => .proper hp
  | boolean => exact .pure (.proper (Value.proper_boolean _))
  | array he =>
      refine (yields_expressions fun e hm => hexpr (he e hm)).bind ?_
      rintro (marker | values) h
      · exact .pure h
      · exact yields_newIdentity.bind fun identity _ => .pure (.proper (Value.proper_array.mpr h))
  | unary ho he =>
      refine yields_visitThen (hexpr he) (by decide) fun operand hp => ?_
      exact yields_conclude (Value.applyPrefix_of _ operand) (by simpa using hp)
  | binary hl ho hr =>
      refine yields_visitThen (hexpr hl) (by decide) fun left hleft => ?_
      refine yields_visitThen (hexpr hr) (by decide) fun right hright => ?_
      exact yields_conclude (Value.applyInfix_of _ left _ right) (by simpa using ⟨hleft, hright⟩)
  | ifThen hc ht =>
      refine yields_visitThen (hexpr hc) (by decide) fun condition _ => ?_
      split
      · exact hbranch ht
      · exact .pure (.proper Value.proper_null)
  | ifElse hc ht hf =>
      refine yields_visitThen (hexpr hc) (by decide) fun condition _ => ?_
      split
      · exact hbranch ht
      · exact hbranch hf
  | function hp hb =>
      refine yields_newIdentity.bind fun identity _ => .pure (.proper ?_)
      rw [Proper, Value.all_function]
      exact ⟨hp, hb⟩
  | call hc ha =>
      refine yields_visitThen (hexpr hc) (by decide) fun callee hcallee => ?_
      refine (yields_expressions fun e hm => hexpr (ha e hm)).bind ?_
      rintro (marker | arguments) h
      · exact .pure h
      · exact (yields_apply (fun b inner hb => hv .block b inner hb) hcallee h).imp
          fun v hanswer => .of_answer hanswer
  | index hc hp =>
      refine yields_visitThen (hexpr hc) (by decide) fun collection hcollection => ?_
      refine yields_visitThen (hexpr hp) (by decide) fun position hposition => ?_
      exact yields_conclude (Value.elementAt_of collection position)
        (by simpa using ⟨hcollection, hposition⟩)

end Nodes

/-- A run of a well-formed tree yields what the place of the tree allows. -/
theorem yields_visit (depth : Nat) {role : Node.Role} {n : Node} (hn : n.WellFormed role)
    (scope : ScopeId) : Yields (Outcome role) (visit depth n scope) := by
  induction depth generalizing role n scope with
  | zero => exact fun m hm => ⟨rfl, hm⟩
  | succ depth ih => exact yields_step (fun role n scope hn => ih hn scope) hn scope

/-- A call of a proper value with proper arguments yields a proper value or an error. -/
theorem yields_apply_visit (depth : Nat) {callee : Value} (hc : callee.Proper)
    {arguments : List Value} (ha : ∀ a ∈ arguments, a.Proper) :
    Yields (fun v => v.Proper ∨ v.isError = true) (apply (visit depth) callee arguments) :=
  yields_apply (fun _ scope hn => yields_visit depth hn scope) hc ha

/-- A whole run of a well-formed tree has a value. -/
theorem exists_evaluateWithin (depth : Nat) {role : Node.Role} {n : Node} (hn : n.WellFormed role)
    (scope : ScopeId) {m : Machine} (hm : m.Good) :
    ∃ v m', evaluateWithin depth n scope m = .ok v m' ∧ m'.Good ∧ v.Outcome role := by
  have hend : Ends (evaluateWithin depth n scope) m (fun v m' => m'.Good ∧ v.Outcome role)
      (fun _ _ => False) := by
    rw [ends_evaluateWithin]
    refine (yields_visit depth hn scope m hm).mono (fun _ _ h => h) ?_
    rintro fault m' ⟨rfl, hg⟩
    exact ⟨hg, .error _⟩
  cases hr : evaluateWithin depth n scope m with
  | ok v m' => exact ⟨v, m', rfl, hend.ok hr⟩
  | error fault m' => exact (hend.error hr).elim

end Eval

end ExprLang
