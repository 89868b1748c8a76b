import ExprLang.Proofs.Evaluation.Run

/-!
# What a run changes

A relation between the machine before and behind a run in a scope holds of every run if it composes
and if it holds of every single change: an event, an identity, a name bound in that scope, and a
call, whose own scope is new. This is the induction over runs, made once.

Two such relations are given here. A run changes no scope but its own, where it only adds or rebinds
names. And every binding that a run changes is in its journal.
-/

namespace ExprLang

namespace Eval

/-- A relation between the machines before and behind a run in a scope that every single change
keeps up. -/
structure Tracks (rel : ScopeId → Machine → Machine → Prop) : Prop where
  refl (scope : ScopeId) (m : Machine) : rel scope m m
  trans {scope : ScopeId} {m m' m'' : Machine} (h : rel scope m m') (h' : rel scope m' m'') :
    rel scope m m''
  noted (scope : ScopeId) (m : Machine) (event : Event) : rel scope m (m.noting event)
  identified (scope : ScopeId) (m : Machine) : rel scope m m.identified
  bound (scope : ScopeId) (m : Machine) (name : String) (value : Value) :
    rel scope m (m.binding scope name value)
  called {scope inside : ScopeId} {m m' : Machine}
    (h : rel m.scopes.count (m.enclosing inside) m') : rel scope m m'

/-- A step keeps up a relation, however it ends. -/
def Keeps {α : Type} (rel : Machine → Machine → Prop) (step : Eval α) : Prop :=
  ∀ m, Ends step m (fun _ m' => rel m m') (fun _ m' => rel m m')

namespace Tracks

variable {α β : Type} {rel : ScopeId → Machine → Machine → Prop} (hrel : Tracks rel)
variable {scope : ScopeId}

include hrel

theorem keeps_pure (a : α) : Keeps (rel scope) (pure a) :=
  fun m => hrel.refl scope m

theorem keeps_bind {step : Eval α} {f : α → Eval β} (hs : Keeps (rel scope) step)
    (hf : ∀ a, Keeps (rel scope) (f a)) : Keeps (rel scope) (step >>= f) := by
  intro m
  rw [ends_bind]
  refine (hs m).imp fun a m' h => ?_
  exact (hf a m').mono (fun _ _ h' => hrel.trans h h') (fun _ _ h' => hrel.trans h h')

theorem keeps_lookUp (name : String) : Keeps (rel scope) (lookUp scope name) := by
  intro m
  rw [ends_lookUp]
  split
  · exact hrel.trans (hrel.noted scope m _) (hrel.noted scope _ _)
  · exact hrel.noted scope m _

theorem keeps_conclude (result : OperatorResult) : Keeps (rel scope) (conclude result) := by
  intro m
  rw [ends_conclude]
  cases result with
  | done value => exact hrel.noted scope m _
  | number value => exact hrel.trans (hrel.noted scope m _) (hrel.identified scope _)
  | failed failure => exact hrel.trans (hrel.noted scope m _) (hrel.noted scope _ _)
  | missing => exact hrel.refl scope m

theorem keeps_newIdentity : Keeps (rel scope) newIdentity :=
  fun m => hrel.identified scope m

section Nodes

variable {visit : Node → ScopeId → Eval Value} (hv : ∀ n scope, Keeps (rel scope) (visit n scope))

include hv

theorem keeps_visitThen (n : Node) {next : Value → Eval Value}
    (hnext : ∀ v, Keeps (rel scope) (next v)) :
    Keeps (rel scope) (visitThen visit n scope next) := by
  refine hrel.keeps_bind (hv n scope) fun v => ?_
  split
  · exact hrel.keeps_pure v
  · exact hnext v

theorem keeps_blockStatements (ss : List Node) (last : Value) :
    Keeps (rel scope) (blockStatements visit scope ss last) := by
  induction ss generalizing last with
  | nil => exact hrel.keeps_pure last
  | cons s rest ih => exact hrel.keeps_visitThen hv s ih

theorem keeps_programStatements (ss : List Node) (last : Value) :
    Keeps (rel scope) (programStatements visit scope ss last) := by
  induction ss generalizing last with
  | nil => exact hrel.keeps_pure last
  | cons s rest ih =>
      refine hrel.keeps_bind (hv s scope) fun v => ?_
      split
      · exact hrel.keeps_pure _
      · exact hrel.keeps_pure _
      · exact ih v

theorem keeps_expressions (es : List Node) : Keeps (rel scope) (expressions visit scope es) := by
  induction es with
  | nil => exact hrel.keeps_pure _
  | cons e rest ih =>
      refine hrel.keeps_bind (hv e scope) fun v => ?_
      split
      · exact hrel.keeps_pure _
      · refine hrel.keeps_bind ih fun r => ?_
        cases r <;> exact hrel.keeps_pure _

/-- A call keeps up the relation for every scope, also for those that it is not made in. -/
theorem keeps_apply (callee : Value) (arguments : List Value) :
    Keeps (rel scope) (apply visit callee arguments) := by
  intro m
  rw [ends_apply]
  have hnoted : rel scope m (m.noting .applied) := hrel.noted scope m _
  cases callee with
  | nothing => exact hnoted
  | function identity parameters body inside =>
      -- the body runs in the new scope, and for the caller all of it is one change
      let start := (m.noting .applied).enclosing inside
      have hcall : ∀ m', rel m.scopes.count start m' → rel scope m m' := fun m' h =>
        hrel.trans hnoted (hrel.called h)
      have hbind : ∀ (name : String) (value : Value) (m' : Machine), value ∈ arguments →
          rel m.scopes.count start m' →
          rel m.scopes.count start (m'.binding m.scopes.count name value) :=
        fun name value m' _ h => hrel.trans h (hrel.bound _ m' name value)
      refine (ends_bindParameters (rel m.scopes.count start) hbind (hrel.refl _ start)).imp ?_
      intro _ m' h
      exact (hv body m.scopes.count m').mono (fun _ _ h' => hcall _ (hrel.trans h h'))
        (fun _ _ h' => hcall _ (hrel.trans h h'))
  | _ => exact hrel.trans hnoted (hrel.noted scope _ _)

theorem keeps_step (n : Node) : Keeps (rel scope) (step visit n scope) := by
  have hbranch : ∀ b : Node, Keeps (rel scope) (do return (← visit b scope).orNull) := fun b =>
    hrel.keeps_bind (hv b scope) fun v => hrel.keeps_pure _
  cases n with
  | program ss => exact hrel.keeps_programStatements hv ss _
  | block ss => exact hrel.keeps_blockStatements hv ss _
  | letBinding name value =>
      refine hrel.keeps_visitThen hv value fun v => ?_
      exact hrel.keeps_bind (fun m => hrel.bound scope m name.text v) fun _ => hrel.keeps_pure _
  | returning value => exact hrel.keeps_visitThen hv value fun v => hrel.keeps_pure _
  | evaluated e => exact hv e scope
  | identifier name => exact hrel.keeps_lookUp name
  | integer value => exact fun m => hrel.identified scope m
  | boolean b => exact hrel.keeps_pure _
  | array es =>
      refine hrel.keeps_bind (hrel.keeps_expressions hv es) fun r => ?_
      cases r with
      | error marker => exact hrel.keeps_pure _
      | ok values => exact hrel.keeps_bind hrel.keeps_newIdentity fun _ => hrel.keeps_pure _
  | unary operator e => exact hrel.keeps_visitThen hv e fun v => hrel.keeps_conclude _
  | binary left operator right =>
      exact hrel.keeps_visitThen hv left fun v =>
        hrel.keeps_visitThen hv right fun w => hrel.keeps_conclude _
  | ifThen condition consequence =>
      refine hrel.keeps_visitThen hv condition fun v => ?_
      split
      · exact hbranch consequence
      · exact hrel.keeps_pure _
  | ifElse condition consequence alternative =>
      refine hrel.keeps_visitThen hv condition fun v => ?_
      split
      · exact hbranch consequence
      · exact hbranch alternative
  | function parameters body =>
      exact hrel.keeps_bind hrel.keeps_newIdentity fun _ => hrel.keeps_pure _
  | call callee arguments =>
      refine hrel.keeps_visitThen hv callee fun v => ?_
      refine hrel.keeps_bind (hrel.keeps_expressions hv arguments) fun r => ?_
      cases r with
      | error marker => exact hrel.keeps_pure _
      | ok values => exact hrel.keeps_apply hv v values
  | index collection position =>
      exact hrel.keeps_visitThen hv collection fun v =>
        hrel.keeps_visitThen hv position fun w => hrel.keeps_conclude _
  | placeholder => exact hrel.keeps_pure _

end Nodes

/-- Every run keeps up the relation. -/
theorem keeps_visit (depth : Nat) (n : Node) : Keeps (rel scope) (visit depth n scope) := by
  induction depth generalizing n scope with
  | zero => exact fun m => hrel.refl scope m
  | succ depth ih => exact hrel.keeps_step (fun n scope => ih n) n

theorem keeps_apply_visit (scope : ScopeId) (depth : Nat) (callee : Value)
    (arguments : List Value) : Keeps (rel scope) (apply (visit depth) callee arguments) :=
  hrel.keeps_apply (fun n _ => hrel.keeps_visit depth n) callee arguments

theorem keeps_evaluateWithin (depth : Nat) (n : Node) :
    Keeps (rel scope) (evaluateWithin depth n scope) := by
  intro m
  rw [ends_evaluateWithin]
  refine (hrel.keeps_visit depth n m).mono (fun _ _ h => h) fun fault m' h => ?_
  split
  · exact hrel.trans h (hrel.noted scope m' _)
  · exact h

end Tracks

end Eval

namespace Machine

/-! ### Scopes -/

/-- No scope but one has other bindings than before, and that one has all the names that it had.
All scopes stand where they stood. -/
structure Frame (scope : ScopeId) (m m' : Machine) : Prop where
  count_le : m.scopes.count ≤ m'.scopes.count
  outer : ∀ id < m.scopes.count, (m'.scopes.get id).outer = (m.scopes.get id).outer
  bindings : ∀ id < m.scopes.count, id ≠ scope →
    (m'.scopes.get id).bindings = (m.scopes.get id).bindings
  names : ∀ name, ((m.scopes.get scope).bindings.lookup name).isSome →
    ((m'.scopes.get scope).bindings.lookup name).isSome

theorem Frame.of_scopes_eq {scope : ScopeId} {m m' : Machine} (h : m'.scopes = m.scopes) :
    Frame scope m m' := by
  constructor <;> simp [h]

theorem Frame.trans {scope : ScopeId} {m m' m'' : Machine} (h : Frame scope m m')
    (h' : Frame scope m' m'') : Frame scope m m'' where
  count_le := Nat.le_trans h.count_le h'.count_le
  outer id hid := (h'.outer id (Nat.lt_of_lt_of_le hid h.count_le)).trans (h.outer id hid)
  bindings id hid hne :=
    (h'.bindings id (Nat.lt_of_lt_of_le hid h.count_le) hne).trans (h.bindings id hid hne)
  names name hn := h'.names name (h.names name hn)

theorem Frame.binding (scope : ScopeId) (m : Machine) (name : String) (value : Value) :
    Frame scope m (m.binding scope name value) := by
  constructor
  · simp
  · intro id _
    rw [binding_scopes, Scopes.get_bind]
    split
    · next h => rw [h.1]; rfl
    · rfl
  · intro id _ hne
    rw [binding_scopes, Scopes.get_bind, if_neg fun h => hne h.1]
  · intro name' hn
    rw [binding_scopes, Scopes.get_bind]
    split
    · rw [Scope.lookup_bindings_bind]
      split
      · rfl
      · exact hn
    · exact hn

/-- What changes in the new scope of a call changes no scope that was there before. -/
theorem Frame.of_enclosing {scope inside : ScopeId} {m m' : Machine}
    (h : Frame m.scopes.count (m.enclosing inside) m') : Frame scope m m' := by
  have hcount : m.scopes.count < (m.enclosing inside).scopes.count := by simp
  have hget : ∀ id < m.scopes.count, (m.enclosing inside).scopes.get id = m.scopes.get id :=
    fun id hid => Scopes.get_add_of_lt _ hid
  constructor
  · exact Nat.le_trans (Nat.le_of_lt hcount) h.count_le
  · intro id hid
    rw [h.outer id (Nat.lt_trans hid hcount), hget id hid]
  · intro id hid _
    rw [h.bindings id (Nat.lt_trans hid hcount) (Nat.ne_of_lt hid), hget id hid]
  · intro name hn
    by_cases hid : scope < m.scopes.count
    · rw [h.bindings scope (Nat.lt_trans hid hcount) (Nat.ne_of_lt hid), hget scope hid]
      exact hn
    · rw [Scopes.get_of_count_le (Nat.le_of_not_lt hid)] at hn
      cases hn

theorem tracks_frame : Eval.Tracks Frame where
  refl _ _ := .of_scopes_eq rfl
  trans := .trans
  noted _ _ _ := .of_scopes_eq rfl
  identified _ _ := .of_scopes_eq rfl
  bound := .binding
  called := .of_enclosing

/-! ### The journal -/

/-- The journal goes on from what it was, and tells of every binding that is not as it was. -/
def Recorded (m m' : Machine) : Prop :=
  ∃ events, m'.journal = events ++ m.journal ∧
    ∀ id name, (m'.scopes.get id).bindings.lookup name ≠ (m.scopes.get id).bindings.lookup name →
      .bound id name ∈ events

theorem Recorded.of_scopes_eq {m m' : Machine} (events : List Event)
    (hj : m'.journal = events ++ m.journal) (h : m'.scopes = m.scopes) : Recorded m m' :=
  ⟨events, hj, fun id name hne => absurd (by rw [h]) hne⟩

theorem Recorded.trans {m m' m'' : Machine} (h : Recorded m m') (h' : Recorded m' m'') :
    Recorded m m'' := by
  obtain ⟨events, hj, hb⟩ := h
  obtain ⟨later, hj', hb'⟩ := h'
  refine ⟨later ++ events, by rw [hj', hj, List.append_assoc], fun id name hne => ?_⟩
  by_cases hmid : (m'.scopes.get id).bindings.lookup name =
      (m.scopes.get id).bindings.lookup name
  · exact List.mem_append_left _ (hb' id name (hmid ▸ hne))
  · exact List.mem_append_right _ (hb id name hmid)

theorem Recorded.binding (scope : ScopeId) (m : Machine) (name : String) (value : Value) :
    Recorded m (m.binding scope name value) := by
  refine ⟨[.bound scope name], rfl, fun id name' hne => ?_⟩
  rw [binding_scopes, Scopes.get_bind] at hne
  split at hne
  · next h =>
      rw [Scope.lookup_bindings_bind, h.1] at hne
      split at hne
      · next hn => simp [h.1, hn]
      · exact absurd rfl hne
  · exact absurd rfl hne

theorem Recorded.enclosing (m : Machine) (scope : ScopeId) : Recorded m (m.enclosing scope) := by
  refine ⟨[], rfl, fun id name hne => absurd ?_ hne⟩
  rw [enclosing_scopes, Scopes.get_add]
  split
  · next h => rw [h, Scopes.get_of_count_le (Nat.le_refl _)]
  · rfl

theorem tracks_recorded : Eval.Tracks fun _ => Recorded where
  refl _ _ := .of_scopes_eq [] rfl rfl
  trans := .trans
  noted _ _ event := .of_scopes_eq [event] rfl rfl
  identified _ _ := .of_scopes_eq [] rfl rfl
  bound := .binding
  called h := (Recorded.enclosing _ _).trans h

end Machine

end ExprLang
