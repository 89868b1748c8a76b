import ExprLang.Proofs.Evaluation.Run
import ExprLang.Proofs.Value.Renaming

/-!
# Runs under a renaming

Two machines are related by a renaming if the scopes of one are those of the other under their new
numbers, and if the numbers that are given out next correspond. A step on one is then mirrored by
the step on the other: both end with corresponding results or both with the same fault, on machines
that are related again. So a run does not depend on which numbers are in use.
-/

namespace ExprLang

namespace Renaming

/-- The scopes of two machines correspond, and so do the numbers not in use yet. -/
structure Relates (r : Renaming) (m m' : Machine) : Prop where
  scopes : ∀ k, r.scope (m.scopes.count + k) = m'.scopes.count + k
  identities : ∀ k, r.identity (m.identities + k) = m'.identities + k
  contents : ∀ id, m'.scopes.get (r.scope id) = r.contents (m.scopes.get id)

variable {r : Renaming} {m m' : Machine}

theorem Relates.chain (h : r.Relates m m') (scope : ScopeId) :
    m'.scopes.chain (r.scope scope) = (m.scopes.chain scope).map r.scope := by
  simp [Scopes.chain, h.contents, Renaming.contents]

theorem Relates.findIn (h : r.Relates m m') (name : String) (ids : List ScopeId) :
    m'.scopes.findIn name (ids.map r.scope) = r.value (m.scopes.findIn name ids) := by
  induction ids with
  | nil => rfl
  | cons id rest ih =>
      simp only [List.map_cons, Scopes.findIn, h.contents, lookup_contents]
      cases (m.scopes.get id).bindings.lookup name with
      | none => exact ih
      | some v => rfl

theorem Relates.lookup (h : r.Relates m m') (scope : ScopeId) (name : String) :
    m'.scopes.lookup (r.scope scope) name = r.value (m.scopes.lookup scope name) := by
  rw [Scopes.lookup, h.chain, h.findIn, Scopes.lookup]

/-- A number is the next one of all exactly if it corresponds to the next one. -/
theorem Relates.eq_count (h : r.Relates m m') (id : ScopeId) :
    r.scope id = m'.scopes.count ↔ id = m.scopes.count := by
  have hnext : r.scope m.scopes.count = m'.scopes.count := h.scopes 0
  constructor
  · intro hid
    exact r.scope_injective (hid.trans hnext.symm)
  · rintro rfl
    exact hnext

/-- A scope is in use exactly if the one that corresponds to it is. -/
theorem Relates.lt_count (h : r.Relates m m') (id : ScopeId) :
    r.scope id < m'.scopes.count ↔ id < m.scopes.count := by
  constructor
  · intro hlt
    refine Nat.lt_of_not_le fun hle => ?_
    obtain ⟨k, rfl⟩ := Nat.exists_eq_add_of_le hle
    rw [h.scopes] at hlt
    exact Nat.not_lt.mpr (Nat.le_add_right _ k) hlt
  · intro hlt
    refine Nat.lt_of_not_le fun hle => ?_
    obtain ⟨k, hk⟩ := Nat.exists_eq_add_of_le hle
    rw [← h.scopes k] at hk
    rw [r.scope_injective hk] at hlt
    exact Nat.not_lt.mpr (Nat.le_add_right _ k) hlt

theorem Relates.of_scopes_eq {n n' : Machine} (h : r.Relates m m') (hs : n.scopes = m.scopes)
    (hi : n.identities = m.identities) (hs' : n'.scopes = m'.scopes)
    (hi' : n'.identities = m'.identities) : r.Relates n n' where
  scopes := by simpa only [hs, hs'] using h.scopes
  identities := by simpa only [hi, hi'] using h.identities
  contents := by simpa only [hs, hs'] using h.contents

theorem Relates.noting (h : r.Relates m m') (event event' : Event) :
    r.Relates (m.noting event) (m'.noting event') :=
  h.of_scopes_eq rfl rfl rfl rfl

theorem Relates.identified (h : r.Relates m m') : r.Relates m.identified m'.identified where
  scopes := h.scopes
  identities k := by
    have := h.identities (1 + k)
    simp only [Machine.identified_identities, Nat.add_assoc]
    exact this
  contents := h.contents

theorem Relates.enclosing (h : r.Relates m m') (scope : ScopeId) :
    r.Relates (m.enclosing scope) (m'.enclosing (r.scope scope)) where
  scopes k := by
    have := h.scopes (1 + k)
    simp only [Machine.enclosing_scopes, Scopes.count_add, Nat.add_assoc]
    exact this
  identities := h.identities
  contents id := by
    simp only [Machine.enclosing_scopes, Scopes.get_add, h.eq_count, h.chain]
    split
    · rfl
    · exact h.contents id

theorem Relates.binding (h : r.Relates m m') (scope : ScopeId) (name : String) (v : Value) :
    r.Relates (m.binding scope name v) (m'.binding (r.scope scope) name (r.value v)) where
  scopes := by simpa using h.scopes
  identities := h.identities
  contents id := by
    have hid : r.scope id = r.scope scope ↔ id = scope :=
      ⟨r.scope_injective, fun h => congrArg r.scope h⟩
    simp only [Machine.binding_scopes, Scopes.get_bind, hid, h.lt_count]
    split
    · rw [contents_bind, h.contents]
    · exact h.contents id

end Renaming

namespace Eval

section Mirrors

variable {α β : Type}

/-- Two ends of steps correspond: by their results, or by the same fault, and by their machines. -/
def Agrees (r : Renaming) (rename : α → α) :
    EStateM.Result Fault Machine α → EStateM.Result Fault Machine α → Prop
  | .ok a m, .ok a' m' => a' = rename a ∧ r.Relates m m'
  | .error fault m, .error fault' m' => fault' = fault ∧ r.Relates m m'
  | _, _ => False

/-- On related machines two steps end alike. -/
def Mirrors (r : Renaming) (rename : α → α) (step step' : Eval α) : Prop :=
  ∀ m m', r.Relates m m' → Agrees r rename (step m) (step' m')

variable {r : Renaming} {rename : α → α} {rename' : β → β}

theorem mirrors_pure (a : α) : Mirrors r rename (pure a) (pure (rename a)) :=
  fun _ _ h => ⟨rfl, h⟩

theorem mirrors_throw (fault : Fault) : Mirrors r rename (throw fault) (throw fault) :=
  fun _ _ h => ⟨rfl, h⟩

theorem mirrors_bind {step step' : Eval α} {f f' : α → Eval β} (hs : Mirrors r rename step step')
    (hf : ∀ a, Mirrors r rename' (f a) (f' (rename a))) :
    Mirrors r rename' (step >>= f) (step' >>= f') := by
  intro m m' h
  have hstep := hs m m' h
  simp only [bind, EStateM.bind]
  cases hm : step m with
  | ok a n =>
      cases hm' : step' m' with
      | ok a' n' =>
          rw [hm, hm'] at hstep
          obtain ⟨rfl, hn⟩ := hstep
          exact hf a n n' hn
      | error fault' n' => rw [hm, hm'] at hstep; exact hstep.elim
  | error fault n =>
      cases hm' : step' m' with
      | ok a' n' => rw [hm, hm'] at hstep; exact hstep.elim
      | error fault' n' => rw [hm, hm'] at hstep; exact hstep

end Mirrors

variable {r : Renaming} {scope : ScopeId}

/-! ### Primitive steps -/

theorem mirrors_note (event event' : Event) : Mirrors r id (note event) (note event') :=
  fun _ _ h => ⟨rfl, h.noting event event'⟩

theorem mirrors_fail (failure : Failure) : Mirrors r r.value (fail failure) (fail failure) :=
  mirrors_bind (mirrors_note _ _) fun _ => mirrors_pure _

theorem mirrors_newIdentity : Mirrors r r.identity newIdentity newIdentity :=
  fun _ _ h => ⟨(h.identities 0).symm, h.identified⟩

theorem mirrors_newInteger (n : Int64) : Mirrors r r.value (newInteger n) (newInteger n) :=
  mirrors_bind mirrors_newIdentity fun _ => mirrors_pure _

theorem mirrors_enclose (scope : ScopeId) :
    Mirrors r r.scope (enclose scope) (enclose (r.scope scope)) :=
  fun _ _ h => ⟨(h.scopes 0).symm, h.enclosing scope⟩

theorem mirrors_bindName (scope : ScopeId) (name : String) (v : Value) :
    Mirrors r id (bindName scope name v) (bindName (r.scope scope) name (r.value v)) :=
  fun _ _ h => ⟨rfl, h.binding scope name v⟩

theorem mirrors_bindParameters (scope : ScopeId) (parameters : List Name)
    (arguments : List Value) :
    Mirrors r id (bindParameters scope parameters arguments)
      (bindParameters (r.scope scope) parameters (arguments.map r.value)) := by
  induction parameters generalizing arguments with
  | nil => exact mirrors_pure ()
  | cons name rest ih =>
      cases arguments with
      | nil => exact mirrors_pure ()
      | cons v values => exact mirrors_bind (mirrors_bindName scope _ v) fun _ => ih values

theorem mirrors_lookUp (scope : ScopeId) (name : String) :
    Mirrors r r.value (lookUp scope name) (lookUp (r.scope scope) name) := by
  intro m m' h
  have hnoted := h.noting (.lookedUp scope name) (.lookedUp (r.scope scope) name)
  rw [lookUp_run, lookUp_run, h.lookup scope name]
  cases m.scopes.lookup scope name with
  | nothing => exact mirrors_fail _ _ _ hnoted
  | _ => exact ⟨rfl, hnoted⟩

theorem mirrors_conclude (result : OperatorResult) :
    Mirrors r r.value (conclude result) (conclude (r.result result)) := by
  cases result with
  | done v => exact mirrors_bind (mirrors_note _ _) fun _ => mirrors_pure v
  | number n => exact mirrors_bind (mirrors_note _ _) fun _ => mirrors_newInteger n
  | failed failure => exact mirrors_bind (mirrors_note _ _) fun _ => mirrors_fail failure
  | missing => exact mirrors_throw _

/-! ### Nodes -/

section Nodes

variable {visit visit' : Node → ScopeId → Eval Value}
variable (hv : ∀ n scope, Mirrors r r.value (visit n scope) (visit' n (r.scope scope)))

include hv

theorem mirrors_visitThen (n : Node) {next next' : Value → Eval Value}
    (hnext : ∀ v, Mirrors r r.value (next v) (next' (r.value v))) :
    Mirrors r r.value (visitThen visit n scope next)
      (visitThen visit' n (r.scope scope) next') := by
  refine mirrors_bind (hv n scope) fun v => ?_
  rw [Renaming.isMarker_value]
  split
  · exact mirrors_pure v
  · exact hnext v

theorem mirrors_blockStatements (ss : List Node) (last : Value) :
    Mirrors r r.value (blockStatements visit scope ss last)
      (blockStatements visit' (r.scope scope) ss (r.value last)) := by
  induction ss generalizing last with
  | nil => exact mirrors_pure last
  | cons s rest ih => exact mirrors_visitThen hv s ih

theorem mirrors_programStatements (ss : List Node) (last : Value) :
    Mirrors r r.value (programStatements visit scope ss last)
      (programStatements visit' (r.scope scope) ss (r.value last)) := by
  induction ss generalizing last with
  | nil => exact mirrors_pure last
  | cons s rest ih =>
      refine mirrors_bind (hv s scope) fun v => ?_
      cases v with
      | returned u => exact mirrors_pure u
      | error failure => exact mirrors_pure _
      | _ => exact ih _

/-- The values of expressions, or the marker among them, under their new numbers. -/
theorem mirrors_expressions (es : List Node) :
    Mirrors r (fun result => match result with
        | .error marker => .error (r.value marker)
        | .ok values => .ok (values.map r.value))
      (expressions visit scope es) (expressions visit' (r.scope scope) es) := by
  induction es with
  | nil => exact mirrors_pure _
  | cons e rest ih =>
      refine mirrors_bind (hv e scope) fun v => ?_
      rw [Renaming.isMarker_value]
      split
      · exact mirrors_pure _
      · refine mirrors_bind ih fun result => ?_
        cases result with
        | error marker => exact mirrors_pure _
        | ok values => exact mirrors_pure _

theorem mirrors_apply (callee : Value) (arguments : List Value) :
    Mirrors r r.value (apply visit callee arguments)
      (apply visit' (r.value callee) (arguments.map r.value)) := by
  refine mirrors_bind (mirrors_note _ _) fun _ => ?_
  cases callee with
  | nothing => exact mirrors_throw _
  | function identity parameters body inside =>
      refine mirrors_bind (mirrors_enclose inside) fun inner => ?_
      refine mirrors_bind (mirrors_bindParameters inner parameters arguments) fun _ => ?_
      refine mirrors_bind (hv body inner) fun v => ?_
      cases v with
      | returned u => exact mirrors_pure u
      | nothing => exact mirrors_pure _
      | _ => exact mirrors_pure _
  | _ => exact mirrors_fail _

theorem mirrors_step (n : Node) :
    Mirrors r r.value (step visit n scope) (step visit' n (r.scope scope)) := by
  have hbranch : ∀ b : Node, Mirrors r r.value (do return (← visit b scope).orNull)
      (do return (← visit' b (r.scope scope)).orNull) := by
    intro b
    refine mirrors_bind (hv b scope) fun v => ?_
    rw [Renaming.orNull_value]
    exact mirrors_pure v.orNull
  cases n with
  | program ss => exact mirrors_programStatements hv ss .nothing
  | block ss => exact mirrors_blockStatements hv ss .nothing
  | letBinding name value =>
      refine mirrors_visitThen hv value fun v => ?_
      exact mirrors_bind (mirrors_bindName scope _ v) fun _ => mirrors_pure _
  | returning value => exact mirrors_visitThen hv value fun v => mirrors_pure _
  | evaluated e => exact hv e scope
  | identifier name => exact mirrors_lookUp scope name
  | integer value => exact mirrors_newInteger _
  | boolean b => exact mirrors_pure _
  | array es =>
      refine mirrors_bind (mirrors_expressions hv es) fun result => ?_
      cases result with
      | error marker => exact mirrors_pure marker
      | ok values =>
          refine mirrors_bind mirrors_newIdentity fun identity => ?_
          rw [← Renaming.values_eq_map]
          exact mirrors_pure _
  | unary operator e =>
      refine mirrors_visitThen hv e fun v => ?_
      rw [Renaming.applyPrefix_value]
      exact mirrors_conclude _
  | binary left operator right =>
      refine mirrors_visitThen hv left fun v => mirrors_visitThen hv right fun w => ?_
      rw [Renaming.isIdentical_value, Renaming.applyInfix_value]
      exact mirrors_conclude _
  | ifThen condition consequence =>
      refine mirrors_visitThen hv condition fun v => ?_
      rw [Renaming.isTruthy_value]
      split
      · exact hbranch consequence
      · exact mirrors_pure _
  | ifElse condition consequence alternative =>
      refine mirrors_visitThen hv condition fun v => ?_
      rw [Renaming.isTruthy_value]
      split
      · exact hbranch consequence
      · exact hbranch alternative
  | function parameters body =>
      exact mirrors_bind mirrors_newIdentity fun identity =>
        mirrors_pure _
  | call callee arguments =>
      refine mirrors_visitThen hv callee fun v => ?_
      refine mirrors_bind (mirrors_expressions hv arguments) fun result => ?_
      cases result with
      | error marker => exact mirrors_pure marker
      | ok values => exact mirrors_apply hv v values
  | index collection position =>
      refine mirrors_visitThen hv collection fun v => mirrors_visitThen hv position fun w => ?_
      rw [Renaming.elementAt_value]
      exact mirrors_conclude _
  | placeholder => exact mirrors_pure _

end Nodes

/-- A run is mirrored by the run of the same tree in the scope that corresponds. -/
theorem mirrors_visit (depth : Nat) (n : Node) (scope : ScopeId) :
    Mirrors r r.value (visit depth n scope) (visit depth n (r.scope scope)) := by
  induction depth generalizing n scope with
  | zero => exact mirrors_throw _
  | succ depth ih => exact mirrors_step ih n

end Eval

end ExprLang
