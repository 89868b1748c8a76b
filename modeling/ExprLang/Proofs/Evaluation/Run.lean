import ExprLang.Evaluation.Basic
import ExprLang.Proofs.Ending
import ExprLang.Proofs.Machine

/-!
# Properties of the end of a run

The equations of `Ends` for the steps of a run: a statement about a node becomes one about the nodes
below it and about the machine in between. The loops over statements, expressions and parameters
have a rule each, which asks for an invariant that one round keeps.
-/

namespace ExprLang

/-- What a call gives for what the body of its function gave. -/
def Value.delivered : Value → Value
  | .returned v => v
  | v => v.orNull

namespace Eval

variable {m : Machine} {onValue : Value → Machine → Prop} {onFault : Fault → Machine → Prop}

/-! ### Equations -/

section Primitives

variable {onUnit : Unit → Machine → Prop} {onNat : Nat → Machine → Prop}

@[simp] theorem ends_note (event : Event) :
    Ends (note event) m onUnit onFault ↔ onUnit () (m.noting event) := Iff.rfl

@[simp] theorem ends_fail (failure : Failure) :
    Ends (fail failure) m onValue onFault ↔
      onValue (.error failure) (m.noting (.failed failure)) := Iff.rfl

@[simp] theorem ends_newIdentity :
    Ends newIdentity m onNat onFault ↔ onNat m.identities m.identified := Iff.rfl

@[simp] theorem ends_newInteger (n : Int64) :
    Ends (newInteger n) m onValue onFault ↔ onValue (.integer m.identities n) m.identified :=
  Iff.rfl

@[simp] theorem ends_enclose (scope : ScopeId) :
    Ends (enclose scope) m onNat onFault ↔ onNat m.scopes.count (m.enclosing scope) := Iff.rfl

@[simp] theorem ends_bindName (scope : ScopeId) (name : String) (value : Value) :
    Ends (bindName scope name value) m onUnit onFault ↔
      onUnit () (m.binding scope name value) := Iff.rfl

/-- A name is looked up in the scopes as they are, behind a note of it. -/
theorem lookUp_run (scope : ScopeId) (name : String) (m : Machine) :
    lookUp scope name m =
      (match m.scopes.lookup scope name with
        | .nothing => fail (.unboundIdentifier name)
        | value => return value : Eval Value) (m.noting (.lookedUp scope name)) := rfl

/-- Looking up a name gives what it is bound to, or makes the error that it is not bound. -/
theorem ends_lookUp (scope : ScopeId) (name : String) :
    Ends (lookUp scope name) m onValue onFault ↔
      if (m.scopes.lookup scope name).isNothing then
        onValue (.error (.unboundIdentifier name))
          ((m.noting (.lookedUp scope name)).noting (.failed (.unboundIdentifier name)))
      else onValue (m.scopes.lookup scope name) (m.noting (.lookedUp scope name)) := by
  rw [Ends, lookUp_run]
  cases m.scopes.lookup scope name <;> exact Iff.rfl

/-- Looking up a name that is bound gives its value. -/
theorem lookUp_of_bound {scope : ScopeId} {name : String}
    (h : (m.scopes.lookup scope name).isNothing = false) :
    lookUp scope name m =
      .ok (m.scopes.lookup scope name) (m.noting (.lookedUp scope name)) := by
  rw [lookUp_run]
  generalize m.scopes.lookup scope name = value at h
  cases value with
  | nothing => cases h
  | _ => rfl

/-- What an operator gives, made into a value. -/
theorem ends_conclude (result : OperatorResult) :
    Ends (conclude result) m onValue onFault ↔
      match result with
      | .done value => onValue value (m.noting .operated)
      | .number value => onValue (.integer m.identities value) (m.noting .operated).identified
      | .failed failure =>
          onValue (.error failure) ((m.noting .operated).noting (.failed failure))
      | .missing => onFault .missingValue m := by
  cases result <;> exact Iff.rfl

end Primitives

section Nodes

variable {visit : Node → ScopeId → Eval Value} {scope : ScopeId}

@[simp] theorem ends_visitThen (n : Node) (next : Value → Eval Value) :
    Ends (visitThen visit n scope next) m onValue onFault ↔
      Ends (visit n scope) m
        (fun v m' => if v.isMarker then onValue v m' else Ends (next v) m' onValue onFault)
        onFault := by
  simp [visitThen]

/-- What is called has to be a function, whose body is run in a new scope. -/
theorem ends_apply (callee : Value) (arguments : List Value) :
    Ends (apply visit callee arguments) m onValue onFault ↔
      match callee with
      | .nothing => onFault .missingValue (m.noting .applied)
      | .function _ parameters body inside =>
          Ends (bindParameters m.scopes.count parameters arguments)
            ((m.noting .applied).enclosing inside)
            (fun _ m' => Ends (visit body m.scopes.count) m'
              (fun v m'' => onValue v.delivered m'') onFault) onFault
      | v =>
          onValue (.error (.notAFunction v.kind))
            ((m.noting .applied).noting (.failed (.notAFunction v.kind))) := by
  cases callee with
  | function _ parameters body inside =>
      simp only [apply, ends_bind, ends_note, ends_enclose, Machine.noting_scopes]
      refine ends_congr fun _ m' => ends_congr fun v m'' => ?_
      cases v <;> exact Iff.rfl
  | _ => exact Iff.rfl

/-- Running a whole tree makes an error of the nesting limit. -/
theorem ends_evaluateWithin (depth : Nat) (n : Node) :
    Ends (evaluateWithin depth n scope) m onValue onFault ↔
      Ends (Eval.visit depth n scope) m onValue (fun fault m' =>
        if fault = .tooDeep then
          onValue (.error .nestedTooDeep) (m'.noting (.failed .nestedTooDeep))
        else onFault fault m') := by
  unfold Ends evaluateWithin
  cases hv : Eval.visit depth n scope m with
  | ok v m' => simp
  | error fault m' =>
      cases fault with
      | tooDeep => exact Iff.rfl
      | _ => simp

/-! ### Rules for loops -/

/-- An invariant of the values so far holds of all values, unless a marker is met. -/
theorem ends_expressions (held : List Value → Machine → Prop)
    {onMarker : Value → Machine → Prop} {es : List Node}
    (hv : ∀ e ∈ es, ∀ values m, held values m → Ends (visit e scope) m
      (fun v m' => if v.isMarker then onMarker v m' else held (values ++ [v]) m') onFault)
    {values : List Value} (h : held values m) :
    Ends (expressions visit scope es) m
      (fun r m' => match r with
        | .error marker => onMarker marker m'
        | .ok more => held (values ++ more) m') onFault := by
  induction es generalizing values m with
  | nil => simpa [expressions] using h
  | cons e rest ih =>
      simp only [expressions, ends_bind, ends_ite, ends_pure]
      refine (hv e (by simp) values m h).imp fun v m' hm => ?_
      by_cases hk : v.isMarker
      · simpa [hk] using hm
      · simp only [hk, Bool.false_eq_true, if_false] at hm ⊢
        refine (ih (fun e' he' => hv e' (by simp [he'])) hm).imp ?_
        rintro (marker | more) m'' hr
        · exact hr
        · simpa using hr

/-- An invariant of the last value holds of the value of a block, unless a marker is met. -/
theorem ends_blockStatements (held : Value → Machine → Prop) {ss : List Node}
    (hv : ∀ s ∈ ss, ∀ last m, held last m → Ends (visit s scope) m
      (fun v m' => if v.isMarker then onValue v m' else held v m') onFault)
    (hend : ∀ v m', held v m' → onValue v m') {last : Value} (h : held last m) :
    Ends (blockStatements visit scope ss last) m onValue onFault := by
  induction ss generalizing last m with
  | nil => exact hend last m h
  | cons s rest ih =>
      simp only [blockStatements, ends_visitThen]
      refine (hv s (by simp) last m h).imp fun v m' hm => ?_
      by_cases hk : v.isMarker
      · simpa [hk] using hm
      · simp only [hk, Bool.false_eq_true, if_false] at hm ⊢
        exact ih (fun s' hs' => hv s' (by simp [hs'])) hm

/-- An invariant of the last value holds of the value of a program, unless a marker is met. -/
theorem ends_programStatements (held : Value → Machine → Prop) {ss : List Node}
    (hv : ∀ s ∈ ss, ∀ last m, held last m → Ends (visit s scope) m
      (fun v m' => if v.isMarker then onValue v.delivered m' else held v m') onFault)
    (hend : ∀ v m', held v m' → onValue v m') {last : Value} (h : held last m) :
    Ends (programStatements visit scope ss last) m onValue onFault := by
  induction ss generalizing last m with
  | nil => exact hend last m h
  | cons s rest ih =>
      have hrest := fun v m' => @ih m' (fun s' hs' => hv s' (by simp [hs'])) v
      simp only [programStatements, ends_bind]
      refine (hv s (by simp) last m h).imp fun v m' hm => ?_
      cases v <;> first | exact hm | exact hrest _ m' hm

/-- An invariant that binding one argument keeps holds when all are bound. -/
theorem ends_bindParameters (held : Machine → Prop) {onFault : Fault → Machine → Prop}
    {parameters : List Name} {arguments : List Value}
    (hb : ∀ name value m, value ∈ arguments → held m → held (m.binding scope name value))
    (h : held m) :
    Ends (bindParameters scope parameters arguments) m (fun _ m' => held m') onFault := by
  induction parameters generalizing arguments m with
  | nil => exact h
  | cons name rest ih =>
      cases arguments with
      | nil => exact h
      | cons value values =>
          simp only [bindParameters, ends_bind, ends_bindName]
          exact ih (fun name' value' m' hm => hb name' value' m' (by simp [hm]))
            (hb name.text value m (by simp) h)

end Nodes

end Eval

end ExprLang
