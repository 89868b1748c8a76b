import ExprLang.Proofs.Evaluation.Change
import ExprLang.Proofs.Evaluation.Session

/-!
# Runtime errors are final

A run makes at most one runtime error. It is the last thing that the run does, whatever the error is
nested in: nothing is looked up, bound, operated on or applied behind it, and it is what the run
gives. A run that gives an error has made it.

This needs that no error and no return is bound in a scope that the run can reach. It does not
depend on how the tree is made up.

## Implementation notes

The scopes that a run can reach are those that can be reached at its start and those that it adds.
Taking all numbers that are not in use yet as reached, the set stays the same during a run.
-/

namespace ExprLang

/-- Whether an event is a runtime error. -/
def Event.isFailure : Event → Bool
  | .failed _ => true
  | _ => false

namespace Value

/-- A value that ends no step; a function was made in one of some scopes. -/
def IsPlain (among : ScopeId → Prop) : Value → Prop
  | .returned _ | .error _ => False
  | .function _ _ _ scope => among scope
  | _ => True

/-- An error, or a value without any marker inside, which may be on its way out. -/
def Settled (among : ScopeId → Prop) : Value → Prop
  | .error _ => True
  | .returned v => v.All (IsPlain among)
  | v => v.All (IsPlain among)

variable {among : ScopeId → Prop} {v : Value}

theorem settled_of_plain (h : v.All (IsPlain among)) : v.Settled among := by
  cases v with
  | returned u => exact h.self.elim
  | error failure => exact trivial
  | _ => exact h

theorem Settled.plain (h : v.Settled among) (hm : v.isMarker = false) : v.All (IsPlain among) := by
  cases v with
  | returned u => cases hm
  | error failure => cases hm
  | _ => exact h

theorem plain_null : null.All (IsPlain among) :=
  all_null.mpr trivial

end Value

namespace Machine

/-! ### The scopes of a run -/

/-- The scopes that can be reached from a scope: it and those around it, and the scopes that the
functions bound in them were made in. -/
inductive Reaches (m : Machine) (scope : ScopeId) : ScopeId → Prop where
  | self : Reaches m scope scope
  | outer {id around : ScopeId} (h : Reaches m scope id)
      (ho : around ∈ (m.scopes.get id).outer) : Reaches m scope around
  | closure {id made : ScopeId} {b : String × Value} {identity : Nat} {parameters : List Name}
      {body : Node} (h : Reaches m scope id) (hb : b ∈ (m.scopes.get id).bindings)
      (hf : (Value.function identity parameters body made).Part b.2) : Reaches m scope made

/-- Some scopes, with all that are not in use yet, lead to no others, and no marker is bound in
them. -/
structure Clean (among : ScopeId → Prop) (m : Machine) : Prop where
  unused : ∀ id, m.scopes.count ≤ id → among id
  outer : ∀ id, among id → ∀ around ∈ (m.scopes.get id).outer, among around
  bound : m.BindsOnly among (Value.IsPlain among)

variable {among : ScopeId → Prop} {m m' m'' : Machine}

/-- The scopes that a run can reach are clean if no marker is bound in those that it starts with. -/
theorem clean_reaches {scope : ScopeId}
    (h : ∀ id, m.Reaches scope id → ∀ b ∈ (m.scopes.get id).bindings,
      b.2.All fun u => u.isMarker = false) :
    m.Clean fun id => m.Reaches scope id ∨ m.scopes.count ≤ id := by
  constructor
  · intro id hid
    exact .inr hid
  · rintro id (hr | hid) around ho
    · exact .inl (hr.outer ho)
    · rw [Scopes.get_of_count_le hid] at ho
      cases ho
  · rintro id (hr | hid) b hb
    · intro u hu
      have hmark := h id hr b hb u hu
      cases u with
      | returned w => cases hmark
      | error failure => cases hmark
      | function identity parameters body made => exact .inl (hr.closure hb hu)
      | _ => exact trivial
    · rw [Scopes.get_of_count_le hid] at hb
      cases hb

theorem Clean.of_scopes_eq (h : m.Clean among) (hs : m'.scopes = m.scopes) : m'.Clean among := by
  constructor
  · simpa [hs] using h.unused
  · simpa [hs] using h.outer
  · simpa [BindsOnly, hs] using h.bound

theorem Clean.binding (h : m.Clean among) (scope : ScopeId) (name : String) {value : Value}
    (hv : value.All (Value.IsPlain among)) : (m.binding scope name value).Clean among where
  unused id hid := h.unused id (by simpa using hid)
  outer id hid around ho := by
    rw [binding_scopes, Scopes.get_bind] at ho
    split at ho
    · next hs => exact h.outer id hid around (hs.1 ▸ ho)
    · exact h.outer id hid around ho
  bound := h.bound.binding scope name hv

theorem Clean.chain (h : m.Clean among) {scope : ScopeId} (hs : among scope) :
    ∀ id ∈ m.scopes.chain scope, among id :=
  List.forall_mem_cons.mpr ⟨hs, h.outer scope hs⟩

theorem Clean.enclosing (h : m.Clean among) {scope : ScopeId} (hs : among scope) :
    (m.enclosing scope).Clean among where
  unused id hid := h.unused id (by simp at hid; omega)
  outer id hid around ho := by
    rw [enclosing_scopes, Scopes.get_add] at ho
    split at ho
    · exact h.chain hs around ho
    · exact h.outer id hid around ho
  bound := h.bound.enclosing scope

/-! ### The journal of a run -/

/-- The journal goes on without a runtime error. -/
def Quiet (m m' : Machine) : Prop :=
  ∃ events, m'.journal = events ++ m.journal ∧ ∀ e ∈ events, e.isFailure = false

theorem Quiet.of_journal_eq (h : m'.journal = m.journal) : m.Quiet m' :=
  ⟨[], h, List.forall_mem_nil _⟩

theorem Quiet.trans (h : m.Quiet m') (h' : m'.Quiet m'') : m.Quiet m'' := by
  obtain ⟨events, hj, hq⟩ := h
  obtain ⟨later, hj', hq'⟩ := h'
  refine ⟨later ++ events, ?_, List.forall_mem_append.mpr ⟨hq', hq⟩⟩
  rw [hj', hj, List.append_assoc]

theorem Quiet.noting (m : Machine) {event : Event} (h : event.isFailure = false) :
    m.Quiet (m.noting event) :=
  ⟨[event], rfl, by simpa using h⟩

theorem Quiet.binding (m : Machine) (scope : ScopeId) (name : String) (value : Value) :
    m.Quiet (m.binding scope name value) :=
  ⟨[.bound scope name], rfl, by simp [Event.isFailure]⟩

/-- A runtime error is the last event if it is what a run gives, and otherwise there is none. -/
def Stops (m : Machine) (v : Value) (m' : Machine) : Prop :=
  match v with
  | .error failure => ∃ before, m.Quiet before ∧ m'.journal = .failed failure :: before.journal
  | _ => m.Quiet m'

theorem Quiet.stops_of_isError {v : Value} (h : m.Quiet m') (hv : v.isError = false) :
    m.Stops v m' := by
  cases v with
  | error failure => cases hv
  | _ => exact h

theorem Quiet.stops_of_plain {v : Value} (h : m.Quiet m') (hv : v.All (Value.IsPlain among)) :
    m.Stops v m' := by
  cases v with
  | error failure => exact hv.self.elim
  | _ => exact h

theorem Stops.quiet {v : Value} (h : m.Stops v m') (hv : v.isMarker = false) : m.Quiet m' := by
  cases v with
  | error failure => cases hv
  | _ => exact h

theorem Quiet.stops {v : Value} (h : m.Quiet m') (h' : m'.Stops v m'') : m.Stops v m'' := by
  cases v with
  | error failure =>
      obtain ⟨before, hq, hj⟩ := h'
      exact ⟨before, h.trans hq, hj⟩
  | _ => exact h.trans h'

theorem Quiet.fail (h : m.Quiet m') (failure : Failure) :
    m.Stops (.error failure) (m'.noting (.failed failure)) :=
  ⟨m', h, rfl⟩

end Machine

namespace Eval

open Value (Settled IsPlain)

/-- From a clean machine a step ends in a clean machine, and only a runtime error ends its
journal. -/
def Finishes (among : ScopeId → Prop) (step : Eval Value) : Prop :=
  ∀ m : Machine, m.Clean among →
    Ends step m (fun v m' => m'.Clean among ∧ v.Settled among ∧ m.Stops v m')
      (fun _ m' => m'.Clean among ∧ m.Quiet m')

variable {among : ScopeId → Prop} {scope : ScopeId}

theorem finishes_pure {v : Value} (hv : v.Settled among) (he : v.isError = false) :
    Finishes among (pure v) :=
  fun _ hm => ⟨hm, hv, (Machine.Quiet.of_journal_eq rfl).stops_of_isError he⟩

/-- A step without a runtime error may come before another. -/
theorem Finishes.after {m m' : Machine} {step : Eval Value} (hs : Finishes among step)
    (hm : m'.Clean among) (hq : m.Quiet m') :
    Ends step m' (fun v m'' => m''.Clean among ∧ v.Settled among ∧ m.Stops v m'')
      (fun _ m'' => m''.Clean among ∧ m.Quiet m'') :=
  (hs m' hm).mono (fun _ _ h => ⟨h.1, h.2.1, hq.stops h.2.2⟩) (fun _ _ h => ⟨h.1, hq.trans h.2⟩)

/-- Behind a step without a marker the journal has no runtime error yet, so that others may follow.
-/
theorem Finishes.round {m m' : Machine} {step : Eval Value} (hs : Finishes among step)
    (hm : m'.Clean among) (hq : m.Quiet m') :
    Ends step m'
      (fun v m'' => if v.isMarker then m''.Clean among ∧ v.Settled among ∧ m.Stops v m''
        else m''.Clean among ∧ v.All (IsPlain among) ∧ m.Quiet m'')
      (fun _ m'' => m''.Clean among ∧ m.Quiet m'') := by
  refine (hs.after hm hq).imp ?_
  rintro v m'' ⟨hclean, hsettled, hstops⟩
  by_cases hk : v.isMarker = true
  · rw [if_pos hk]
    exact ⟨hclean, hsettled, hstops⟩
  · rw [if_neg hk]
    have hv : v.isMarker = false := Bool.eq_false_iff.mpr hk
    exact ⟨hclean, hsettled.plain hv, hstops.quiet hv⟩

theorem finishes_lookUp (hs : among scope) (name : String) :
    Finishes among (lookUp scope name) := by
  intro m hm
  have hq : m.Quiet (m.noting (.lookedUp scope name)) := .noting m rfl
  rw [ends_lookUp]
  by_cases hn : (m.scopes.lookup scope name).isNothing
  · rw [if_pos hn]
    exact ⟨hm.of_scopes_eq rfl, trivial, hq.fail _⟩
  · rw [if_neg hn]
    have hv := hm.bound.lookup (hm.chain hs) (Bool.eq_false_iff.mpr hn)
    exact ⟨hm.of_scopes_eq rfl, Value.settled_of_plain hv, hq.stops_of_plain hv⟩

theorem finishes_conclude {operands : List Value} {result : OperatorResult}
    (hr : result.Of operands) (ho : ∀ v ∈ operands, v.All (IsPlain among)) :
    Finishes among (conclude result) := by
  intro m hm
  have hq : m.Quiet (m.noting .operated) := .noting m rfl
  rw [ends_conclude]
  cases hr with
  | boolean b => exact ⟨hm.of_scopes_eq rfl, Value.all_boolean.mpr trivial, hq⟩
  | null => exact ⟨hm.of_scopes_eq rfl, Value.plain_null, hq⟩
  | number n => exact ⟨hm.of_scopes_eq rfl, Value.all_integer.mpr trivial, hq⟩
  | failed failure => exact ⟨hm.of_scopes_eq rfl, trivial, hq.fail failure⟩
  | element ha he =>
      have hv := (Value.all_array.mp (ho _ ha)).2 _ he
      exact ⟨hm.of_scopes_eq rfl, Value.settled_of_plain hv, hq.stops_of_plain hv⟩
  | missing hn => exact ⟨hm, .of_journal_eq rfl⟩

/-! ### Nodes -/

section Nodes

variable {visit : Node → ScopeId → Eval Value}

theorem finishes_visitThen {n : Node} {next : Value → Eval Value}
    (hn : Finishes among (visit n scope))
    (hnext : ∀ v, v.All (IsPlain among) → Finishes among (next v)) :
    Finishes among (visitThen visit n scope next) := by
  intro m hm
  rw [ends_visitThen]
  refine (hn.round hm (.of_journal_eq rfl)).imp fun v m' h => ?_
  split at h
  · next hk =>
      rw [if_pos hk]
      exact h
  · next hk =>
      obtain ⟨hclean, hplain, hq⟩ := h
      rw [if_neg hk]
      exact (hnext v hplain).after hclean hq

/-- The values of expressions have no marker inside, or else a marker is met. -/
theorem ends_expressions_final {es : List Node} (he : ∀ e ∈ es, Finishes among (visit e scope))
    {m : Machine} (hm : m.Clean among) :
    Ends (expressions visit scope es) m
      (fun r m' => m'.Clean among ∧ match r with
        | .error marker => marker.Settled among ∧ m.Stops marker m'
        | .ok values => (∀ v ∈ values, v.All (IsPlain among)) ∧ m.Quiet m')
      (fun _ m' => m'.Clean among ∧ m.Quiet m') := by
  let held := fun (values : List Value) (m' : Machine) =>
    m'.Clean among ∧ (∀ v ∈ values, v.All (IsPlain among)) ∧ m.Quiet m'
  have hrounds : ∀ e ∈ es, ∀ values m', held values m' → Ends (visit e scope) m'
      (fun v m'' => if v.isMarker then m''.Clean among ∧ v.Settled among ∧ m.Stops v m''
        else held (values ++ [v]) m'')
      (fun _ m'' => m''.Clean among ∧ m.Quiet m'') := by
    rintro e hmem values m' ⟨hclean, hvalues, hq⟩
    refine ((he e hmem).round hclean hq).imp fun v m'' h => ?_
    split at h
    · next hk =>
        rw [if_pos hk]
        exact h
    · next hk =>
        obtain ⟨hclean', hplain, hq'⟩ := h
        rw [if_neg hk]
        exact ⟨hclean', List.forall_mem_append.mpr ⟨hvalues, by simpa using hplain⟩, hq'⟩
  refine (ends_expressions held hrounds ⟨hm, List.forall_mem_nil _, .of_journal_eq rfl⟩).imp ?_
  rintro (marker | values) m' h <;> exact h

/-- What is done with the values of expressions is done only if no marker is met. -/
theorem finishes_expressions {es : List Node} (he : ∀ e ∈ es, Finishes among (visit e scope))
    {next : Except Value (List Value) → Eval Value} (hmarker : ∀ v, next (.error v) = pure v)
    (hnext : ∀ values : List Value, (∀ v ∈ values, v.All (IsPlain among)) →
      Finishes among (next (.ok values))) :
    Finishes among (expressions visit scope es >>= next) := by
  intro m hm
  rw [ends_bind]
  refine (ends_expressions_final he hm).imp ?_
  rintro (marker | values) m' ⟨hclean, h⟩
  · rw [hmarker]
    exact ⟨hclean, h⟩
  · exact (hnext values h.1).after hclean h.2

theorem finishes_blockStatements {ss : List Node}
    (hs : ∀ s ∈ ss, Finishes among (visit s scope)) :
    Finishes among (blockStatements visit scope ss .nothing) := by
  intro m hm
  refine ends_blockStatements
    (fun v m' => m'.Clean among ∧ v.All (IsPlain among) ∧ m.Quiet m') ?_ ?_
    ⟨hm, Value.all_nothing.mpr trivial, .of_journal_eq rfl⟩
  · rintro s hmem last m' ⟨hclean, -, hq⟩
    exact (hs s hmem).round hclean hq
  · rintro v m' ⟨hclean, hv, hq⟩
    exact ⟨hclean, Value.settled_of_plain hv, hq.stops_of_plain hv⟩

/-- What a call or a program gives for a marker ends the same way. -/
theorem delivered_final {m m' : Machine} {v : Value} (hv : v.Settled among) (hs : m.Stops v m') :
    v.delivered.Settled among ∧ m.Stops v.delivered m' := by
  cases v with
  | nothing => exact ⟨Value.plain_null, hs⟩
  | returned u => exact ⟨Value.settled_of_plain hv, Machine.Quiet.stops_of_plain hs hv⟩
  | _ => exact ⟨hv, hs⟩

theorem finishes_programStatements {ss : List Node}
    (hs : ∀ s ∈ ss, Finishes among (visit s scope)) :
    Finishes among (programStatements visit scope ss .nothing) := by
  intro m hm
  refine ends_programStatements
    (fun v m' => m'.Clean among ∧ v.All (IsPlain among) ∧ m.Quiet m') ?_ ?_
    ⟨hm, Value.all_nothing.mpr trivial, .of_journal_eq rfl⟩
  · rintro s hmem last m' ⟨hclean, -, hq⟩
    refine ((hs s hmem).round hclean hq).imp fun v m'' h => ?_
    split at h
    · next hk =>
        obtain ⟨hclean', hsettled, hstops⟩ := h
        rw [if_pos hk]
        exact ⟨hclean', delivered_final hsettled hstops⟩
    · next hk =>
        rw [if_neg hk]
        exact h
  · rintro v m' ⟨hclean, hv, hq⟩
    exact ⟨hclean, Value.settled_of_plain hv, hq.stops_of_plain hv⟩

theorem finishes_apply (hv : ∀ n scope, among scope → Finishes among (visit n scope))
    {callee : Value} (hc : callee.All (IsPlain among)) {arguments : List Value}
    (ha : ∀ a ∈ arguments, a.All (IsPlain among)) :
    Finishes among (apply visit callee arguments) := by
  intro m hm
  have hq : m.Quiet (m.noting .applied) := .noting m rfl
  have hnoted : (m.noting .applied).Clean among := hm.of_scopes_eq rfl
  rw [ends_apply]
  cases callee with
  | nothing => exact ⟨hnoted, hq⟩
  | function identity parameters body inside =>
      -- the new scope is clean, since its number was not in use
      let held := fun m' : Machine => m'.Clean among ∧ m.Quiet m'
      have hinside : among inside := hc.self
      have hbind : ∀ (name : String) (value : Value) (m' : Machine), value ∈ arguments →
          held m' → held (m'.binding m.scopes.count name value) := by
        rintro name value m' hmem ⟨hclean, hquiet⟩
        exact ⟨hclean.binding _ name (ha value hmem), hquiet.trans (.binding m' _ name value)⟩
      have hstart : held ((m.noting .applied).enclosing inside) :=
        ⟨hnoted.enclosing hinside, hq.trans (.of_journal_eq rfl)⟩
      refine (ends_bindParameters held hbind hstart).imp ?_
      rintro _ m' ⟨hclean, hquiet⟩
      have hinner : among m.scopes.count := hm.unused _ (Nat.le_refl _)
      refine ((hv body _ hinner).after hclean hquiet).imp ?_
      rintro v m'' ⟨hclean', hsettled, hstops⟩
      exact ⟨hclean', delivered_final hsettled hstops⟩
  | _ => exact ⟨hnoted.of_scopes_eq rfl, trivial, hq.fail _⟩

theorem finishes_step (hv : ∀ n scope, among scope → Finishes among (visit n scope)) (n : Node)
    (hs : among scope) : Finishes among (step visit n scope) := by
  have hnode : ∀ e : Node, Finishes among (visit e scope) := fun e => hv e scope hs
  have hbranch : ∀ b : Node, Finishes among (do return (← visit b scope).orNull) := by
    intro b m hm
    rw [bind_pure_comp, ends_map]
    refine (hnode b m hm).imp ?_
    rintro v m' ⟨hclean, hsettled, hstops⟩
    cases v with
    | nothing => exact ⟨hclean, Value.plain_null, hstops⟩
    | _ => exact ⟨hclean, hsettled, hstops⟩
  cases n with
  | program ss => exact finishes_programStatements fun s _ => hnode s
  | block ss => exact finishes_blockStatements fun s _ => hnode s
  | letBinding name value =>
      refine finishes_visitThen (hnode value) fun v hplain m hm => ?_
      rw [ends_bind, ends_bindName, ends_pure]
      exact ⟨hm.binding scope _ hplain, Value.all_nothing.mpr trivial, .binding m scope _ v⟩
  | returning value =>
      exact finishes_visitThen (hnode value) fun v hplain => finishes_pure hplain rfl
  | evaluated e => exact hnode e
  | identifier name => exact finishes_lookUp hs name
  | integer value =>
      exact fun m hm =>
        ⟨hm.of_scopes_eq rfl, Value.all_integer.mpr trivial, .of_journal_eq rfl⟩
  | boolean b => exact finishes_pure (Value.all_boolean.mpr trivial) rfl
  | array es =>
      refine finishes_expressions (fun e _ => hnode e) (fun _ => rfl) fun values hplain m hm => ?_
      exact ⟨hm.of_scopes_eq rfl, Value.all_array.mpr ⟨trivial, hplain⟩, .of_journal_eq rfl⟩
  | unary operator e =>
      refine finishes_visitThen (hnode e) fun v hplain => ?_
      exact finishes_conclude (Value.applyPrefix_of _ v) (by simpa using hplain)
  | binary left operator right =>
      refine finishes_visitThen (hnode left) fun v hleft => ?_
      refine finishes_visitThen (hnode right) fun w hright => ?_
      exact finishes_conclude (Value.applyInfix_of _ v _ w) (by simpa using ⟨hleft, hright⟩)
  | ifThen condition consequence =>
      refine finishes_visitThen (hnode condition) fun v _ => ?_
      split
      · exact hbranch consequence
      · exact finishes_pure Value.plain_null rfl
  | ifElse condition consequence alternative =>
      refine finishes_visitThen (hnode condition) fun v _ => ?_
      split
      · exact hbranch consequence
      · exact hbranch alternative
  | function parameters body =>
      exact fun m hm => ⟨hm.of_scopes_eq rfl, Value.all_function.mpr hs, .of_journal_eq rfl⟩
  | call callee arguments =>
      refine finishes_visitThen (hnode callee) fun v hcallee => ?_
      exact finishes_expressions (fun e _ => hnode e) (fun _ => rfl) fun values hplain =>
        finishes_apply hv hcallee hplain
  | index collection position =>
      refine finishes_visitThen (hnode collection) fun v hcollection => ?_
      refine finishes_visitThen (hnode position) fun w hposition => ?_
      exact finishes_conclude (Value.elementAt_of v w) (by simpa using ⟨hcollection, hposition⟩)
  | placeholder => exact finishes_pure (Value.all_nothing.mpr trivial) rfl

end Nodes

theorem finishes_visit (depth : Nat) (n : Node) (hs : among scope) :
    Finishes among (visit depth n scope) := by
  induction depth generalizing n scope with
  | zero => exact fun m hm => ⟨hm, .of_journal_eq rfl⟩
  | succ depth ih => exact finishes_step (fun n scope hs => ih n hs) n hs

/-! ### Whole runs -/

/-- The journal of a whole run has at most one runtime error, the last event, and it is what the run
gives; a run that gives no error has none. -/
theorem evaluateWithin_stops (depth : Nat) (n : Node) {m : Machine} (hm : m.Clean among)
    (hs : among scope) :
    Ends (evaluateWithin depth n scope) m (fun v m' => m.Stops v m') (fun _ m' => m.Quiet m') := by
  rw [ends_evaluateWithin]
  refine (finishes_visit depth n hs m hm).mono (fun v m' h => h.2.2) ?_
  rintro fault m' ⟨-, hq⟩
  split
  · exact hq.fail _
  · exact hq

/-- A runtime error is final: it is the only one of its run and the last event in the journal, which
tells of every binding that changed, and the run gives it. If a run gives an error, it made that
error, and a run that ends with a fault made none. -/
theorem evaluateWithin_final (depth : Nat) (n : Node) {scope : ScopeId} {m : Machine}
    (hm : ∀ id, m.Reaches scope id → ∀ b ∈ (m.scopes.get id).bindings,
      b.2.All fun u => u.isMarker = false) :
    Ends (evaluateWithin depth n scope) m
      (fun v m' => ∃ events, m'.journal = events ++ m.journal ∧
        (∀ id name, (m'.scopes.get id).bindings.lookup name ≠
          (m.scopes.get id).bindings.lookup name → .bound id name ∈ events) ∧
        match v with
        | .error failure => ∃ earlier, events = .failed failure :: earlier ∧
            ∀ e ∈ earlier, e.isFailure = false
        | _ => ∀ e ∈ events, e.isFailure = false)
      (fun _ m' => ∃ events, m'.journal = events ++ m.journal ∧
        ∀ e ∈ events, e.isFailure = false) := by
  have hstops := evaluateWithin_stops depth n (Machine.clean_reaches hm) (.inl .self)
  have hrecorded : Keeps Machine.Recorded (evaluateWithin depth n scope) :=
    Machine.tracks_recorded.keeps_evaluateWithin depth n
  refine (hstops.and (hrecorded m)).mono ?_ (fun _ _ h => h.1)
  rintro v m' ⟨hv, events, hj, hbound⟩
  refine ⟨events, hj, hbound, ?_⟩
  cases v with
  | error failure =>
      -- both splits of the journal have the same end, so their beginnings agree
      obtain ⟨before, ⟨earlier, hb, hquiet⟩, hlast⟩ := hv
      rw [hj, hb, ← List.cons_append] at hlast
      exact ⟨earlier, List.append_cancel_right hlast, hquiet⟩
  | _ =>
      obtain ⟨quiet, hj', hquiet⟩ := hv
      rw [hj] at hj'
      rw [List.append_cancel_right hj']
      exact hquiet

/-- The error is in an argument of a call in an array. -/
theorem evaluateWithin_final_in_argument :
    ∃ first m next m' events,
      parseWithin 60 "let f = func(a) { a }" = .ok first ∧
      evaluateWithin 60 first.tree 0 .initial = .ok .nothing m ∧
      (∀ id, m.Reaches 0 id → ∀ b ∈ (m.scopes.get id).bindings,
        b.2.All fun u => u.isMarker = false) ∧
      parseWithin 60 "let b = [f(1), f(c), f(2)]; let d = 3" = .ok next ∧
      evaluateWithin 60 next.tree 0 m = .ok (.error (.unboundIdentifier "c")) m' ∧
      m'.journal = .failed (.unboundIdentifier "c") :: events ++ m.journal ∧
      ∀ e ∈ events, e.isFailure = false := by
  obtain ⟨first, hfirst, m, hm, next, hnext, m', hm'⟩ :
      ∃ first, parseWithin 60 "let f = func(a) { a }" = .ok first ∧
      ∃ m, evaluateWithin 60 first.tree 0 .initial = .ok .nothing m ∧
      ∃ next, parseWithin 60 "let b = [f(1), f(c), f(2)]; let d = 3" = .ok next ∧
      ∃ m', evaluateWithin 60 next.tree 0 m = .ok (.error (.unboundIdentifier "c")) m' :=
    ⟨_, rfl, _, rfl, _, rfl, _, rfl⟩
  have hs : Session .initial m := Session.start.ran (by decide) hfirst hm
  have hplain := fun id (_ : m.Reaches 0 id) => (hs.good Machine.good_initial).isMarker id
  obtain ⟨_, hj, -, events, rfl, hquiet⟩ := (evaluateWithin_final 60 next.tree hplain).ok hm'
  exact ⟨first, m, next, m', events, hfirst, hm, hplain, hnext, hm', hj, hquiet⟩

end Eval

end ExprLang
