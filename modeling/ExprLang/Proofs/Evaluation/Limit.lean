import ExprLang.Proofs.Evaluation.Run

/-!
# The depth of a run

Running a node runs nodes below it one after the other, and each of them with one level less. A run
that comes to a node with no level left ends there: no node above goes on with anything, so the run as
a whole is too deep. And a run that never comes to such a node is the same with more levels.

## Implementation notes

`entries` lists what a node runs, with the scope and the machine at that moment. How the run of a
node depends on the runs below it is then said by three properties of this list (`Consults`): a
fault of one of them is the fault of the node, the node is too deep only if one of them is, and
nothing else than these runs matters. They are proved node by node, and all that is said about depths
follows by induction on the levels.
-/

namespace ExprLang

namespace Eval

/-! ### What a node runs -/

/-- A node that is about to be run. -/
structure Entry where
  node : Node
  scope : ScopeId
  machine : Machine

/-- The run of a node that is about to be run. -/
def Entry.run (visit : Node → ScopeId → Eval Value) (e : Entry) :
    EStateM.Result Fault Machine Value :=
  visit e.node e.scope e.machine

/-- What is run behind a step, unless it ended with a fault. -/
def behind {α : Type} (next : α → Machine → List Entry) :
    EStateM.Result Fault Machine α → List Entry
  | .ok a m => next a m
  | .error _ _ => []

section Entries

variable (visit : Node → ScopeId → Eval Value)

/-- A node is run, and what follows it is run unless the value is a marker. -/
def entriesThen (n : Node) (scope : ScopeId) (next : Value → Machine → List Entry) (m : Machine) :
    List Entry :=
  ⟨n, scope, m⟩ :: behind (fun v m' => if v.isMarker then [] else next v m') (visit n scope m)

/-- Nodes are run one after the other up to the first marker. -/
def entriesAll (scope : ScopeId) : List Node → Machine → List Entry
  | [], _ => []
  | n :: rest, m => entriesThen visit n scope (fun _ m' => entriesAll scope rest m') m

/-- The body of a function is run in a new scope with the parameters bound. -/
def entriesOfApply (callee : Value) (arguments : List Value) (m : Machine) : List Entry :=
  match callee with
  | .function _ parameters body inside =>
      behind (fun _ m' => [⟨body, m.scopes.count, m'⟩])
        (bindParameters m.scopes.count parameters arguments ((m.noting .applied).enclosing inside))
  | _ => []

/-- What running a node runs right below it, in order. -/
def entries (n : Node) (scope : ScopeId) (m : Machine) : List Entry :=
  match n with
  | .program ss _ | .block ss _ | .array ss _ => entriesAll visit scope ss m
  | .letBinding _ v _ | .returning v _ | .evaluated v _ | .unary _ v _ => [⟨v, scope, m⟩]
  | .binary l _ r _ | .index l r _ =>
      entriesThen visit l scope (fun _ m' => [⟨r, scope, m'⟩]) m
  | .ifThen c t _ =>
      entriesThen visit c scope (fun v m' => if v.isTruthy then [⟨t, scope, m'⟩] else []) m
  | .ifElse c t e _ =>
      entriesThen visit c scope
        (fun v m' => if v.isTruthy then [⟨t, scope, m'⟩] else [⟨e, scope, m'⟩]) m
  | .call f es _ =>
      entriesThen visit f scope (fun callee m' =>
        entriesAll visit scope es m' ++
          behind (fun result m'' => match result with
            | .error _ => []
            | .ok arguments => entriesOfApply callee arguments m'')
          (expressions visit scope es m')) m
  | .identifier .. | .integer .. | .boolean .. | .function .. | .placeholder _ => []

end Entries

/-- The run of a node comes to one with no level left, and the machine is then a certain one. -/
def Overflows : (depth : Nat) → Node → ScopeId → Machine → Machine → Prop
  | 0, _, _, m, m' => m' = m
  | depth + 1, n, scope, m, m' =>
      ∃ e ∈ entries (visit depth) n scope m, Overflows depth e.node e.scope e.machine m'

/-! ### Steps and what they run -/

section Consults

variable {α β : Type}

/-- A step depends on the runs of a list of nodes, and on nothing else that is run. The second step
is the first one with another way to run nodes. -/
structure Consults (visit visit' : Node → ScopeId → Eval Value) (m : Machine) (es : List Entry)
    (step step' : Eval α) : Prop where
  fault : ∀ e ∈ es, ∀ fault m', e.run visit = .error fault m' → step m = .error fault m'
  tooDeep : ∀ m', step m = .error .tooDeep m' → ∃ e ∈ es, e.run visit = .error .tooDeep m'
  agrees : (∀ e ∈ es, e.run visit' = e.run visit) → step' m = step m

/-- A step that runs no node is not too deep. -/
def Shallow (step : Eval α) : Prop :=
  ∀ m, Ends step m (fun _ _ => True) (fun fault _ => fault ≠ .tooDeep)

variable {visit visit' : Node → ScopeId → Eval Value} {m : Machine} {es : List Entry}
variable {step step' : Eval α}

theorem consults_nil (h : Shallow step) : Consults visit visit' m [] step step where
  fault _ he := absurd he List.not_mem_nil
  tooDeep _ hm' := absurd rfl ((h m).error hm')
  agrees _ := rfl

theorem consults_visit (n : Node) (scope : ScopeId) :
    Consults visit visit' m [⟨n, scope, m⟩] (visit n scope) (visit' n scope) where
  fault e he fault m' h := by
    cases List.mem_singleton.mp he
    exact h
  tooDeep m' h := ⟨⟨n, scope, m⟩, List.mem_singleton.mpr rfl, h⟩
  agrees h := h ⟨n, scope, m⟩ (List.mem_singleton.mpr rfl)

/-- Two steps in a row depend on what the first one runs and on what the second one runs then. -/
theorem Consults.bind {next : α → Machine → List Entry} {f f' : α → Eval β}
    (h : Consults visit visit' m es step step')
    (hf : ∀ a m', Consults visit visit' m' (next a m') (f a) (f' a)) :
    Consults visit visit' m (es ++ behind next (step m)) (step >>= f) (step' >>= f') := by
  cases hs : step m with
  | error fault m₁ =>
      rw [behind, List.append_nil]
      constructor
      · intro e he fault' m' hfault
        exact bind_of_error (h.fault e he fault' m' hfault)
      · intro m' hm'
        rw [bind_of_error hs] at hm'
        cases hm'
        exact h.tooDeep m₁ hs
      · intro hagree
        rw [bind_of_error hs, bind_of_error ((h.agrees hagree).trans hs)]
  | ok a m₁ =>
      have hsecond := hf a m₁
      rw [behind]
      constructor
      · intro e he fault m' hfault
        rcases List.mem_append.mp he with he | he
        · exact bind_of_error (h.fault e he fault m' hfault)
        · rw [bind_of_ok hs]
          exact hsecond.fault e he fault m' hfault
      · intro m' hm'
        rw [bind_of_ok hs] at hm'
        obtain ⟨e, he, hdeep⟩ := hsecond.tooDeep m' hm'
        exact ⟨e, List.mem_append_right es he, hdeep⟩
      · intro hagree
        rw [List.forall_mem_append] at hagree
        rw [bind_of_ok hs, bind_of_ok ((h.agrees hagree.1).trans hs)]
        exact hsecond.agrees hagree.2

/-- A second step that runs no node. -/
theorem Consults.shallow {f : α → Eval β} (h : Consults visit visit' m es step step')
    (hf : ∀ a, Shallow (f a)) : Consults visit visit' m es (step >>= f) (step' >>= f) := by
  have hnone : behind (fun (_ : α) (_ : Machine) => []) (step m) = [] := by
    cases step m <;> rfl
  have hboth : Consults visit visit' m (es ++ behind (fun _ _ => []) (step m)) (step >>= f)
      (step' >>= f) := h.bind fun a _ => consults_nil (hf a)
  rw [hnone, List.append_nil] at hboth
  exact hboth

/-- A step that is another one on another machine. -/
theorem Consults.of_eq {step₁ step₁' : Eval α} {m₁ : Machine}
    (h : Consults visit visit' m₁ es step₁ step₁') (hs : step m = step₁ m₁)
    (hs' : step' m = step₁' m₁) : Consults visit visit' m es step step' := by
  constructor
  · rw [hs]
    exact h.fault
  · rw [hs]
    exact h.tooDeep
  · rw [hs, hs']
    exact h.agrees

end Consults

/-! ### Steps that run no node -/

theorem shallow_pure {α : Type} (a : α) : Shallow (pure a) :=
  fun _ => True.intro

theorem shallow_delivered (v : Value) :
    Shallow (match v with
      | .returned u => pure u
      | u => pure u.orNull : Eval Value) := by
  cases v <;> exact shallow_pure _

theorem shallow_lookUp (scope : ScopeId) (name : String) : Shallow (lookUp scope name) := by
  intro m
  rw [ends_lookUp]
  split <;> trivial

theorem shallow_conclude (result : OperatorResult) : Shallow (conclude result) := by
  intro m
  rw [ends_conclude]
  cases result with
  | missing => exact Fault.noConfusion
  | _ => trivial

theorem shallow_bindParameters (scope : ScopeId) (parameters : List Name)
    (arguments : List Value) : Shallow (bindParameters scope parameters arguments) := by
  intro m
  apply (ends_bindParameters (fun _ => True) (fun _ _ _ _ _ => trivial) trivial).mono
  · intros
    trivial
  · intro fault m' h
    exact h

/-! ### Nodes -/

section Nodes

variable {visit visit' : Node → ScopeId → Eval Value} {scope : ScopeId} {m : Machine}

theorem consults_visitThen (n : Node) {es : Value → Machine → List Entry}
    {next next' : Value → Eval Value}
    (hnext : ∀ v m', Consults visit visit' m' (es v m') (next v) (next' v)) :
    Consults visit visit' m (entriesThen visit n scope es m) (visitThen visit n scope next)
      (visitThen visit' n scope next') := by
  apply (consults_visit n scope).bind
  intro v m'
  split
  · exact consults_nil (shallow_pure v)
  · exact hnext v m'

/-- A node whose value is used in steps that run no node. -/
theorem consults_visitLast (n : Node) {next : Value → Eval Value} (hnext : ∀ v, Shallow (next v)) :
    Consults visit visit' m [⟨n, scope, m⟩] (visitThen visit n scope next)
      (visitThen visit' n scope next) := by
  apply (consults_visit n scope).shallow
  intro v
  split
  · exact shallow_pure v
  · exact hnext v

theorem consults_blockStatements (ss : List Node) (last : Value) :
    Consults visit visit' m (entriesAll visit scope ss m) (blockStatements visit scope ss last)
      (blockStatements visit' scope ss last) := by
  induction ss generalizing m last with
  | nil => exact consults_nil (shallow_pure last)
  | cons s rest ih => exact consults_visitThen s fun v m' => ih v

theorem consults_programStatements (ss : List Node) (last : Value) :
    Consults visit visit' m (entriesAll visit scope ss m) (programStatements visit scope ss last)
      (programStatements visit' scope ss last) := by
  induction ss generalizing m last with
  | nil => exact consults_nil (shallow_pure last)
  | cons s rest ih =>
      apply (consults_visit s scope).bind
      intro v m'
      cases v with
      | returned u => exact consults_nil (shallow_pure u)
      | error failure => exact consults_nil (shallow_pure _)
      | _ => exact ih _

theorem consults_expressions (es : List Node) :
    Consults visit visit' m (entriesAll visit scope es m) (expressions visit scope es)
      (expressions visit' scope es) := by
  induction es generalizing m with
  | nil => exact consults_nil (shallow_pure _)
  | cons e rest ih =>
      apply (consults_visit e scope).bind
      intro v m'
      split
      · exact consults_nil (shallow_pure _)
      · apply ih.shallow
        intro result
        cases result <;> exact shallow_pure _

theorem consults_apply (callee : Value) (arguments : List Value) :
    Consults visit visit' m (entriesOfApply callee arguments m) (apply visit callee arguments)
      (apply visit' callee arguments) := by
  cases callee with
  | nothing => exact consults_nil fun _ => Fault.noConfusion
  | function identity parameters body inside =>
      -- The machine on which the body is run is the one behind the binding of the parameters.
      have hbody := (consults_nil (shallow_bindParameters m.scopes.count parameters arguments)
        : Consults visit visit' ((m.noting .applied).enclosing inside) _ _ _).bind fun _ m' =>
          (consults_visit body m.scopes.count).shallow fun v => shallow_delivered v
      exact hbody.of_eq rfl rfl
  | _ => exact consults_nil fun _ => True.intro

theorem consults_step (n : Node) :
    Consults visit visit' m (entries visit n scope m) (step visit n scope)
      (step visit' n scope) := by
  have hbranch : ∀ (b : Node) (m' : Machine), Consults visit visit' m' [⟨b, scope, m'⟩]
      (do return (← visit b scope).orNull) (do return (← visit' b scope).orNull) := by
    intro b m'
    exact (consults_visit b scope).shallow fun v => shallow_pure _
  cases n with
  | program ss => exact consults_programStatements ss .nothing
  | block ss => exact consults_blockStatements ss .nothing
  | letBinding name value => exact consults_visitLast value fun v _ => True.intro
  | returning value => exact consults_visitLast value fun v => shallow_pure _
  | evaluated e => exact consults_visit e scope
  | identifier name => exact consults_nil (shallow_lookUp scope name)
  | integer value => exact consults_nil fun _ => True.intro
  | boolean b => exact consults_nil (shallow_pure _)
  | array es =>
      apply (consults_expressions es).shallow
      intro result
      cases result <;> exact fun _ => True.intro
  | unary operator e => exact consults_visitLast e fun v => shallow_conclude _
  | binary left operator right =>
      apply consults_visitThen left
      intro v m'
      exact consults_visitLast right fun w => shallow_conclude _
  | ifThen condition consequence =>
      apply consults_visitThen condition
      intro v m'
      split
      · exact hbranch consequence m'
      · exact consults_nil (shallow_pure _)
  | ifElse condition consequence alternative =>
      apply consults_visitThen condition
      intro v m'
      split
      · exact hbranch consequence m'
      · exact hbranch alternative m'
  | function parameters body => exact consults_nil fun _ => True.intro
  | call callee arguments =>
      apply consults_visitThen callee
      intro v m'
      apply (consults_expressions arguments).bind
      intro result m''
      cases result with
      | error marker => exact consults_nil (shallow_pure _)
      | ok values => exact consults_apply v values
  | index collection position =>
      apply consults_visitThen collection
      intro v m'
      exact consults_visitLast position fun w => shallow_conclude _
  | placeholder => exact consults_nil (shallow_pure _)

end Nodes

/-! ### Levels -/

/-- A run is too deep exactly if it comes to a node with no level left, and nothing is done behind
that. -/
theorem visit_tooDeep_iff (depth : Nat) (n : Node) (scope : ScopeId) (m m' : Machine) :
    visit depth n scope m = .error .tooDeep m' ↔ Overflows depth n scope m m' := by
  induction depth generalizing n scope m with
  | zero =>
      constructor
      · intro h
        cases h
        rfl
      · rintro rfl
        rfl
  | succ depth ih =>
      have hstep : Consults (visit depth) (visit depth) m (entries (visit depth) n scope m)
          (visit (depth + 1) n scope) (visit (depth + 1) n scope) := consults_step n
      constructor
      · intro h
        obtain ⟨e, he, hdeep⟩ := hstep.tooDeep m' h
        exact ⟨e, he, (ih e.node e.scope e.machine).mp hdeep⟩
      · rintro ⟨e, he, hdeep⟩
        exact hstep.fault e he .tooDeep m' ((ih e.node e.scope e.machine).mpr hdeep)

/-- A run that is not too deep is the same with more levels. -/
theorem visit_deeper {depth depth' : Nat} (hd : depth ≤ depth') {n : Node} {scope : ScopeId}
    {m : Machine} (h : ∀ m', visit depth n scope m ≠ .error .tooDeep m') :
    visit depth' n scope m = visit depth n scope m := by
  induction depth generalizing depth' n scope m with
  | zero => exact absurd rfl (h m)
  | succ depth ih =>
      obtain ⟨levels, rfl⟩ : ∃ levels, depth' = levels + 1 := ⟨depth' - 1, by omega⟩
      have hstep : Consults (visit depth) (visit levels) m (entries (visit depth) n scope m)
          (visit (depth + 1) n scope) (visit (levels + 1) n scope) := consults_step n
      apply hstep.agrees
      intro e he
      apply ih (Nat.le_of_succ_le_succ hd)
      intro m' hdeep
      exact h m' (hstep.fault e he .tooDeep m' hdeep)

/-- Running a whole tree that is too deep gives the error of the depth. -/
theorem evaluateWithin_of_tooDeep {depth : Nat} {n : Node} {scope : ScopeId} {m m' : Machine}
    (h : visit depth n scope m = .error .tooDeep m') :
    evaluateWithin depth n scope m =
      .ok (.error .nestedTooDeep) (m'.noting (.failed .nestedTooDeep)) := by
  rw [evaluateWithin, h]
  rfl

/-- Running a whole tree without the error of the depth is the same with more levels. -/
theorem evaluateWithin_deeper {depth depth' : Nat} (hd : depth ≤ depth') {n : Node}
    {scope : ScopeId} {m : Machine}
    (h : ∀ m', evaluateWithin depth n scope m ≠ .ok (.error .nestedTooDeep) m') :
    evaluateWithin depth' n scope m = evaluateWithin depth n scope m := by
  have hfits : ∀ m', visit depth n scope m ≠ .error .tooDeep m' :=
    fun m' hdeep => h _ (evaluateWithin_of_tooDeep hdeep)
  rw [evaluateWithin, evaluateWithin, visit_deeper hd hfits]

/-- A run without a fault other than that of the depth gives a value, if a whole tree is run. -/
theorem exists_value_of_ends {depth : Nat} {n : Node} {scope : ScopeId} {m : Machine}
    {onValue : Value → Machine → Prop} {p : Prop}
    (h : Ends (visit depth n scope) m onValue (fun fault _ => fault = .tooDeep ∧ p)) :
    ∃ v m', evaluateWithin depth n scope m = .ok v m' ∧
      (onValue v m' ∨ v = .error .nestedTooDeep ∧ p) := by
  cases hv : visit depth n scope m with
  | ok v m' =>
      refine ⟨v, m', ?_, Or.inl (h.ok hv)⟩
      rw [evaluateWithin, hv]
  | error fault m' =>
      obtain ⟨rfl, hp⟩ := h.error hv
      exact ⟨_, _, evaluateWithin_of_tooDeep hv, Or.inr ⟨rfl, hp⟩⟩

/-- A run is too deep exactly if it comes to a node with no level left, whatever is around that node.
It then ends there with the error of the depth. A run that does not give this error is the same with
more levels: it gives the same value on the same machine. -/
theorem evaluateWithin_of_le {depth depth' : Nat} (hd : depth ≤ depth') (n : Node)
    (scope : ScopeId) (m : Machine) :
    (∀ m', Overflows depth n scope m m' ↔ visit depth n scope m = .error .tooDeep m') ∧
      (∀ m', Overflows depth n scope m m' →
        evaluateWithin depth n scope m =
          .ok (.error .nestedTooDeep) (m'.noting (.failed .nestedTooDeep))) ∧
      ((∀ m', evaluateWithin depth n scope m ≠ .ok (.error .nestedTooDeep) m') →
        evaluateWithin depth' n scope m = evaluateWithin depth n scope m) ∧
      Failure.nestedTooDeep.message = "maximum recursion depth exceeded" := by
  refine ⟨?_, ?_, ?_, rfl⟩
  · intro m'
    exact (visit_tooDeep_iff depth n scope m m').symm
  · intro m' h
    exact evaluateWithin_of_tooDeep ((visit_tooDeep_iff depth n scope m m').mpr h)
  · exact evaluateWithin_deeper hd

/-- The body of a function that is called at once: five levels end within the body, and six are as
good as nine. -/
theorem evaluateWithin_of_le_call :
    ∃ n m', n = .program [.evaluated (.call
        (.function [⟨"a", Span.nowhere⟩]
          (.block [.evaluated (.identifier "a" Span.nowhere) Span.nowhere] Span.nowhere)
          Span.nowhere)
        [.integer 7 Span.nowhere] Span.nowhere) Span.nowhere] Span.nowhere ∧
      Overflows 5 n 0 Machine.initial m' ∧
      evaluateWithin 5 n 0 Machine.initial =
        .ok (.error .nestedTooDeep) (m'.noting (.failed .nestedTooDeep)) ∧
      (∀ m'', evaluateWithin 6 n 0 Machine.initial ≠ .ok (.error .nestedTooDeep) m'') ∧
      evaluateWithin 9 n 0 Machine.initial = evaluateWithin 6 n 0 Machine.initial := by
  obtain ⟨n, m', hn, hdeep, value, m'', hvalue, hne⟩ : ∃ n m', n = Node.program [.evaluated (.call
      (.function [⟨"a", Span.nowhere⟩]
        (.block [.evaluated (.identifier "a" Span.nowhere) Span.nowhere] Span.nowhere)
        Span.nowhere)
      [.integer 7 Span.nowhere] Span.nowhere) Span.nowhere] Span.nowhere ∧
      visit 5 n 0 Machine.initial = .error .tooDeep m' ∧
      ∃ value m'', evaluateWithin 6 n 0 Machine.initial = .ok value m'' ∧
        value ≠ .error .nestedTooDeep :=
    ⟨_, _, rfl, rfl, _, _, rfl, Value.noConfusion⟩
  obtain ⟨hiff, herror, -⟩ := evaluateWithin_of_le (by decide : 5 ≤ 6) n 0 Machine.initial
  have hover := (hiff m').mpr hdeep
  have hfits : ∀ m₁, evaluateWithin 6 n 0 Machine.initial ≠ .ok (.error .nestedTooDeep) m₁ := by
    intro m₁ h
    rw [hvalue] at h
    cases h
    exact hne rfl
  obtain ⟨-, -, hsame, -⟩ := evaluateWithin_of_le (by decide : 6 ≤ 9) n 0 Machine.initial
  exact ⟨n, m', hn, hover, herror m' hover, hfits, hsame hfits⟩

end Eval

end ExprLang
