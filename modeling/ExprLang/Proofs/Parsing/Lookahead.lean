import ExprLang.Proofs.Parsing.Loop
import ExprLang.Proofs.Parsing.Routines
import Mathlib.Logic.ExistsUnique

/-!
# One token of lookahead

A parse sees the tokens that it passes over, the current one and the one behind that. What stands
further on has no influence: on every stream with the same tokens up to there, a routine ends at the
same position and with the same result or fault, and it lists the same diagnostics.

## Implementation notes

From every state a *local* step has one effect on all streams that agree up to the token behind the
one at which it ends. Two local steps in a row are local, as the second one starts where the first one
ends. Of all that rules are made of, only the number of tokens left is not local, and the loops count
down from it. They are compared as loops without a count.

A parse can go on behind the last token of its stream, where the input ends for ever: every block that
is not closed passes over one more token. A state does not tell how many these are, so positions are
counted on streams in which the ends of the input are written out.
-/

namespace ExprLang

/-! ### Streams and their positions -/

namespace TokenStream

/-- The token at a position of a stream. Behind the last one the input ends for ever. -/
def tokenAt (stream : TokenStream) (i : Nat) : Token :=
  stream.pending.getD i (Token.ending stream.endPlace)

/-- The stream from a position on. -/
def drop (stream : TokenStream) (i : Nat) : TokenStream :=
  { stream with pending := stream.pending.drop i }

/-- Two streams have their first `k` tokens in common. -/
def AgreeFor (k : Nat) (stream stream' : TokenStream) : Prop :=
  ∀ i < k, stream'.tokenAt i = stream.tokenAt i

instance (k : Nat) (stream stream' : TokenStream) : Decidable (AgreeFor k stream stream') :=
  inferInstanceAs (Decidable (∀ i < k, stream'.tokenAt i = stream.tokenAt i))

/-- The stream with so many ends of the input written out behind its last token. -/
def withEnds (n : Nat) (stream : TokenStream) : TokenStream :=
  { stream with pending := stream.pending ++ List.replicate n (Token.ending stream.endPlace) }

variable {stream stream' : TokenStream} {i k : Nat}

@[simp] theorem drop_zero (stream : TokenStream) : stream.drop 0 = stream := rfl

@[simp] theorem drop_one (stream : TokenStream) : stream.drop 1 = stream.tail := by
  rw [drop, tail, List.drop_one]

@[simp] theorem drop_drop (stream : TokenStream) (i j : Nat) :
    (stream.drop i).drop j = stream.drop (i + j) := by
  simp [drop]

@[simp] theorem tokenAt_zero (stream : TokenStream) : stream.tokenAt 0 = stream.head := by
  rw [tokenAt, head, List.headD_eq_head?_getD, List.getD_eq_getElem?_getD, List.head?_eq_getElem?]

@[simp] theorem tokenAt_drop (stream : TokenStream) (i j : Nat) :
    (stream.drop i).tokenAt j = stream.tokenAt (i + j) := by
  simp [tokenAt, drop, List.getD_eq_getElem?_getD]

@[simp] theorem tokenAt_one (stream : TokenStream) : stream.tokenAt 1 = stream.tail.head := by
  rw [← drop_one, ← tokenAt_zero, tokenAt_drop]

@[simp] theorem withEnds_zero (stream : TokenStream) : stream.withEnds 0 = stream := by
  simp [withEnds]

/-- Writing out ends of the input changes no token. -/
@[simp] theorem tokenAt_withEnds (n : Nat) (stream : TokenStream) (i : Nat) :
    (stream.withEnds n).tokenAt i = stream.tokenAt i := by
  simp only [tokenAt, withEnds, List.getD_eq_getElem?_getD]
  obtain hi | hi := Nat.lt_or_ge i stream.pending.length
  · rw [List.getElem?_append_left hi]
  · rw [List.getElem?_append_right hi, List.getElem?_eq_none hi, List.getElem?_replicate]
    split <;> rfl

theorem length_withEnds (n : Nat) (stream : TokenStream) :
    (stream.withEnds n).pending.length = stream.pending.length + n := by
  simp [withEnds]

theorem AgreeFor.refl (k : Nat) (stream : TokenStream) : stream.AgreeFor k stream :=
  fun _ _ => rfl

theorem AgreeFor.mono {k' : Nat} (h : stream.AgreeFor k stream') (hk : k' ≤ k) :
    stream.AgreeFor k' stream' :=
  fun i hi => h i (Nat.lt_of_lt_of_le hi hk)

/-- What two streams have in common from a position on. -/
theorem AgreeFor.drop {k' : Nat} (h : stream.AgreeFor k stream') (hk : i + k' ≤ k) :
    (stream.drop i).AgreeFor k' (stream'.drop i) := by
  intro j hj
  rw [tokenAt_drop, tokenAt_drop]
  exact h (i + j) (by omega)

theorem AgreeFor.withEnds (h : stream.AgreeFor k stream') (n : Nat) :
    stream.AgreeFor k (stream'.withEnds n) := by
  intro i hi
  rw [tokenAt_withEnds]
  exact h i hi

end TokenStream

/-- The state so many tokens further on, with more diagnostics. -/
def ParseState.past (s : ParseState) (passed : Nat) (listed : List Diagnostic) : ParseState :=
  ⟨s.stream.drop passed, s.diagnostics ++ listed⟩

@[simp] theorem ParseState.past_zero (s : ParseState) : s.past 0 [] = s := by
  simp [past]

/-- The way to a state is known from that state if it is not behind the last token. -/
theorem ParseState.past_inj {s : ParseState} {passed passed' : Nat}
    {listed listed' : List Diagnostic} (hs : passed < s.left)
    (h : s.past passed' listed' = s.past passed listed) : passed' = passed ∧ listed' = listed := by
  obtain ⟨hstream, hdiagnostics⟩ := ParseState.mk.inj h
  have hlength := congrArg (·.pending.length) hstream
  simp only [TokenStream.drop, List.length_drop] at hlength
  rw [left] at hs
  exact ⟨by omega, List.append_cancel_left hdiagnostics⟩

namespace Parse

variable {α β : Type}

/-- What a step does: how many tokens it passes over, the result or the fault that it ends with, and
the diagnostics that it lists. -/
structure Effect (α : Type) where
  passed : Nat
  outcome : Except Fault α
  listed : List Diagnostic

namespace Effect

/-- The end of a step with this effect. -/
def on (effect : Effect α) (s : ParseState) : EStateM.Result Fault ParseState α :=
  match effect.outcome with
  | .ok a => .ok a (s.past effect.passed effect.listed)
  | .error fault => .error fault (s.past effect.passed effect.listed)

/-- The effect together with that of a step in front, which passes over tokens and lists diagnostics. -/
def behind (effect : Effect α) (passed : Nat) (listed : List Diagnostic) : Effect α :=
  ⟨passed + effect.passed, effect.outcome, listed ++ effect.listed⟩

theorem le_passed_behind (effect : Effect α) (passed : Nat) (listed : List Diagnostic) :
    passed + (effect.passed + 2) ≤ (effect.behind passed listed).passed + 2 :=
  Nat.le_of_eq (Nat.add_assoc passed effect.passed 2).symm

theorem on_past (effect : Effect α) (s : ParseState) (passed : Nat) (listed : List Diagnostic) :
    effect.on (s.past passed listed) = (effect.behind passed listed).on s := by
  simp [on, behind, ParseState.past]

theorem eq_of_on {effect effect' : Effect α} {s : ParseState} (h : effect'.on s = effect.on s)
    (hs : effect.passed < s.left) : effect' = effect := by
  obtain ⟨passed, outcome, listed⟩ := effect
  obtain ⟨passed', outcome', listed'⟩ := effect'
  cases outcome <;> cases outcome' <;> simp only [on, reduceCtorEq] at h
  all_goals
    injection h with houtcome hpast
    obtain ⟨rfl, rfl⟩ := ParseState.past_inj hs hpast
    rw [houtcome]

end Effect

/-! ### Local steps -/

/-- From every state a step has one effect on all streams that agree up to the token behind the one at
which it ends. -/
def Local (step : Parse α) : Prop :=
  ∀ s : ParseState, ∃ effect : Effect α, ∀ s', s.stream.AgreeFor (effect.passed + 2) s'.stream →
    step s' = effect.on s'

section Local

variable {step step' : Parse α}

theorem local_pure (a : α) : Local (pure a) := by
  intro s
  refine ⟨⟨0, .ok a, []⟩, fun s' _ => ?_⟩
  rw [Effect.on, ParseState.past_zero]
  rfl

theorem local_throw (fault : Fault) : Local (throw fault : Parse α) := by
  intro s
  refine ⟨⟨0, .error fault, []⟩, fun s' _ => ?_⟩
  rw [Effect.on, ParseState.past_zero]
  rfl

theorem local_current : Local current := by
  intro s
  refine ⟨⟨0, .ok s.token, []⟩, fun s' hagree => ?_⟩
  have htoken : s'.token = s.token := by
    simpa [ParseState.token] using hagree 0 (by omega)
  rw [Effect.on, ParseState.past_zero, ← htoken]
  rfl

theorem local_peek : Local peek := by
  intro s
  refine ⟨⟨0, .ok s.next.token, []⟩, fun s' hagree => ?_⟩
  have htoken : s'.next.token = s.next.token := by
    simpa [ParseState.token, ParseState.next] using hagree 1 (by omega)
  rw [Effect.on, ParseState.past_zero, ← htoken]
  rfl

theorem local_advance : Local advance := by
  intro s
  refine ⟨⟨1, .ok (), []⟩, fun s' _ => ?_⟩
  simp only [Effect.on, ParseState.past, TokenStream.drop_one, List.append_nil]
  rfl

theorem local_complain (complaint : Complaint) (span : Span) : Local (complain complaint span) :=
  fun _ => ⟨⟨0, .ok (), [⟨complaint, span⟩]⟩, fun _ _ => rfl⟩

/-- What a local step that ends with a result does on other streams. -/
theorem Local.of_ok (h : Local step) {s t : ParseState} {a : α} (hs : step s = .ok a t) :
    ∃ passed listed, t = s.past passed listed ∧ ∀ s' : ParseState,
      s.stream.AgreeFor (passed + 2) s'.stream → step s' = .ok a (s'.past passed listed) := by
  obtain ⟨⟨passed, outcome, listed⟩, heffect⟩ := h s
  have hself := heffect s (.refl _ _)
  rw [hs] at hself
  cases outcome with
  | error fault => cases hself
  | ok a' =>
      cases hself
      exact ⟨passed, listed, rfl, heffect⟩

/-- What a local step that ends with a fault does on other streams. -/
theorem Local.of_error (h : Local step) {s t : ParseState} {fault : Fault}
    (hs : step s = .error fault t) :
    ∃ passed listed, ∀ s' : ParseState, s.stream.AgreeFor (passed + 2) s'.stream →
      step s' = .error fault (s'.past passed listed) := by
  obtain ⟨⟨passed, outcome, listed⟩, heffect⟩ := h s
  have hself := heffect s (.refl _ _)
  rw [hs] at hself
  cases outcome with
  | error fault' =>
      cases hself
      exact ⟨passed, listed, heffect⟩
  | ok a => cases hself

/-- The second step starts where the first one ends, and it sees nothing before that position. -/
theorem Local.bind {f : α → Parse β} (h : Local step) (hf : ∀ a, Local (f a)) :
    Local (step >>= f) := by
  intro s
  cases hs : step s with
  | error fault t =>
      obtain ⟨passed, listed, hstep⟩ := h.of_error hs
      refine ⟨⟨passed, .error fault, listed⟩, fun s' hagree => ?_⟩
      exact bind_of_error (hstep s' hagree)
  | ok a t =>
      obtain ⟨passed, listed, rfl, hstep⟩ := h.of_ok hs
      obtain ⟨effect, hnext⟩ := hf a (s.past passed listed)
      refine ⟨effect.behind passed listed, fun s' hagree => ?_⟩
      have hreach := effect.le_passed_behind passed listed
      rw [bind_of_ok (hstep s' (hagree.mono (by omega))), ← Effect.on_past]
      exact hnext _ (hagree.drop hreach)

theorem Local.map (h : Local step) (f : α → β) : Local (f <$> step) := by
  rw [map_eq_pure_bind]
  exact h.bind fun a => local_pure (f a)

theorem Local.ite {p : Prop} [Decidable p] (h : Local step) (h' : Local step') :
    Local (if p then step else step') := by
  split
  · exact h
  · exact h'

theorem local_spanFrom (start : Token) : Local (spanFrom start) :=
  local_current.bind fun _ => local_pure _

theorem local_currentName : Local currentName :=
  local_current.bind fun _ => local_pure _

theorem local_skipSemicolon : Local skipSemicolon :=
  local_peek.bind fun _ => local_advance.ite (local_pure ())

theorem local_expectPeek (kind : Kind) : Local (expectPeek kind) := by
  refine local_peek.bind fun next => Local.ite ?_ ?_
  · exact local_advance.bind fun _ => local_pure true
  · exact (local_complain _ _).bind fun _ => local_pure false

theorem local_expecting {kind : Kind} {step : Parse (Option α)} (h : Local step) :
    Local (expecting kind step) :=
  (local_expectPeek kind).bind fun _ => h.ite (local_pure none)

/-! ### Loops -/

variable {round : α → Parse (α ⊕ β)} {a : α}

/-- A loop without a count has one effect on all streams that agree up to the token behind the one at
which it ends, if its rounds are local. -/
theorem Repeats.effect (h : ∀ a, Local (round a)) {s : ParseState}
    {r : EStateM.Result Fault ParseState β} (hr : Repeats round a s r) :
    ∃ effect : Effect β, ∀ s' r', s.stream.AgreeFor (effect.passed + 2) s'.stream →
      Repeats round a s' r' → r' = effect.on s' := by
  induction hr with
  | @leave a s t b hround =>
      obtain ⟨passed, listed, -, hround'⟩ := (h a).of_ok hround
      refine ⟨⟨passed, .ok b, listed⟩, fun s' r' hagree hr' => ?_⟩
      exact hr'.eq_ok (hround' s' hagree)
  | @fault a s t fault hround =>
      obtain ⟨passed, listed, hround'⟩ := (h a).of_error hround
      refine ⟨⟨passed, .error fault, listed⟩, fun s' r' hagree hr' => ?_⟩
      exact hr'.eq_error (hround' s' hagree)
  | @again a a' s t r hround hrest ih =>
      obtain ⟨passed, listed, rfl, hround'⟩ := (h a).of_ok hround
      -- The rest of the loop starts where the round has ended.
      obtain ⟨effect, hnext⟩ := ih
      refine ⟨effect.behind passed listed, fun s' r' hagree hr' => ?_⟩
      rw [← Effect.on_past]
      have hreach := effect.le_passed_behind passed listed
      exact hnext _ r' (hagree.drop hreach) (hr'.rest (hround' s' (hagree.mono (by omega))))

/-- A loop with a round for every token that is left is local if its rounds are. -/
theorem local_loop {loop : Nat → Parse β} (h : ∀ a, Local (round a))
    (hloop : ∀ s n, s.left ≤ n → Repeats round a s (loop n s)) : Local (remaining >>= loop) := by
  intro s
  obtain ⟨effect, heffect⟩ := (hloop s s.left (Nat.le_refl _)).effect h
  refine ⟨effect, fun s' hagree => ?_⟩
  exact heffect s' _ hagree (hloop s' s'.left (Nat.le_refl _))

/-- Such a loop with what follows it. -/
theorem local_loop_bind {γ : Type} {loop : Nat → Parse β} {f : β → Parse γ}
    (h : ∀ a, Local (round a)) (hloop : ∀ s n, s.left ≤ n → Repeats round a s (loop n s))
    (hf : ∀ b, Local (f b)) : Local (remaining >>= fun n => loop n >>= f) := by
  have hb : Local ((remaining >>= loop) >>= f) := (local_loop h hloop).bind hf
  simpa only [bind_assoc] using hb

end Local

/-! ### Literals and names -/

theorem local_identifier : Local identifier :=
  local_current.bind fun _ => local_pure _

theorem local_boolean : Local boolean :=
  local_current.bind fun _ => local_pure _

theorem local_integer : Local integer := by
  refine local_current.bind fun token => ?_
  cases Text.readInt token.text with
  | error reason => exact local_throw _
  | ok value =>
      exact ((local_complain _ _).bind fun _ => local_pure none).ite (local_pure _)

/-- Readers of nested expressions and statements that are local. -/
structure LocalReaders (expression : Precedence → Parse (Option Node))
    (statement : Parse (Option Node)) : Prop where
  unbounded : Unbounded expression statement
  expression : ∀ precedence, Local (expression precedence)
  statement : Local statement

section Rules

variable {expression : Precedence → Parse (Option Node)} {statement : Parse (Option Node)}
variable (h : LocalReaders expression statement)

include h

/-! ### Lists -/

theorem local_expressionRound (es : List (Option Node)) :
    Local (expressionRound expression es) := by
  refine local_peek.bind fun next => Local.ite ?_ (local_pure _)
  refine local_advance.bind fun _ => local_advance.bind fun _ => ?_
  exact (h.expression .lowest).bind fun next => local_pure _

theorem local_expressionList (closing : Kind) : Local (expressionList expression closing) := by
  refine local_peek.bind fun next => Local.ite ?_ ?_
  · exact local_advance.bind fun _ => local_pure _
  · refine local_advance.bind fun _ => (h.expression .lowest).bind fun first => ?_
    refine local_loop_bind (local_expressionRound h) h.unbounded.moreExpressions fun rest => ?_
    exact local_expecting (local_pure _)

omit h in
theorem local_parameterRound (names : List Name) : Local (parameterRound names) := by
  refine local_peek.bind fun next => Local.ite ?_ (local_pure _)
  refine local_advance.bind fun _ => (local_expectPeek _).bind fun found => Local.ite ?_ ?_
  · exact local_currentName.bind fun name => local_pure _
  · exact local_pure _

theorem local_parameters : Local parameters := by
  refine local_peek.bind fun next => Local.ite ?_ ?_
  · exact local_advance.bind fun _ => local_pure _
  · refine local_expecting (local_currentName.bind fun first => ?_)
    refine local_loop_bind local_parameterRound h.unbounded.moreParameters fun rest => ?_
    cases rest with
    | none => exact local_pure none
    | some rest => exact local_expecting (local_pure _)

/-! ### Blocks -/

theorem local_blockRound (ns : List Node) : Local (blockRound statement ns) := by
  refine local_current.bind fun token => Local.ite (local_pure _) ?_
  exact h.statement.bind fun next => local_advance.bind fun _ => local_pure _

theorem local_block : Local (block statement) := by
  refine local_current.bind fun start => local_advance.bind fun _ => ?_
  refine local_loop_bind (local_blockRound h) h.unbounded.blockStatements fun statements => ?_
  exact (local_spanFrom start).bind fun span => local_pure _

/-! ### Operands -/

theorem local_unary : Local (unary expression) := by
  refine local_current.bind fun operator => local_advance.bind fun _ => ?_
  refine (h.expression .unary).bind fun operand => ?_
  exact (local_spanFrom operator).bind fun span => local_pure _

theorem local_grouped : Local (grouped expression) := by
  refine local_advance.bind fun _ => (h.expression .lowest).bind fun inner => ?_
  exact local_expecting (local_pure inner)

theorem local_conditional : Local (conditional expression statement) := by
  refine local_current.bind fun start => local_expecting ?_
  refine local_advance.bind fun _ => (h.expression .lowest).bind fun condition => ?_
  refine local_expecting (local_expecting ((local_block h).bind fun consequence => ?_))
  refine local_peek.bind fun next => Local.ite ?_ ?_
  · refine local_advance.bind fun _ => local_expecting ((local_block h).bind fun alternative => ?_)
    exact (local_spanFrom start).bind fun span => local_pure _
  · exact (local_spanFrom start).bind fun span => local_pure _

theorem local_functionLiteral : Local (functionLiteral statement) := by
  refine local_current.bind fun start => local_expecting ((local_parameters h).bind fun names => ?_)
  cases names with
  | none => exact local_pure none
  | some names =>
      refine local_expecting ((local_block h).bind fun body => ?_)
      exact (local_spanFrom start).bind fun span => local_pure _

theorem local_arrayLiteral : Local (arrayLiteral expression) := by
  refine local_current.bind fun start => ?_
  refine (local_expressionList h .rightBracket).bind fun elements => ?_
  exact (local_spanFrom start).bind fun span => local_pure _

theorem local_operandRule {kind : Kind} {rule : Parse (Option Node)}
    (hr : operandRule? expression statement kind = some rule) : Local rule := by
  cases kind <;> cases hr
  case identifier => exact local_identifier
  case integer => exact local_integer
  case trueWord => exact local_boolean
  case falseWord => exact local_boolean
  case bang => exact local_unary h
  case minus => exact local_unary h
  case leftParen => exact local_grouped h
  case ifWord => exact local_conditional h
  case funcWord => exact local_functionLiteral h
  case leftBracket => exact local_arrayLiteral h

/-! ### Going on from an operand -/

theorem local_binary (left : Option Node) : Local (binary expression left) := by
  refine local_current.bind fun operator => local_advance.bind fun _ => ?_
  exact (h.expression _).bind fun right => local_pure _

theorem local_call (callee : Option Node) : Local (call expression callee) := by
  refine (local_expressionList h .rightParen).bind fun arguments => ?_
  exact local_current.bind fun last => local_pure _

theorem local_index (collection : Option Node) : Local (index expression collection) := by
  refine local_advance.bind fun _ => (h.expression .lowest).bind fun position => ?_
  exact local_expecting (local_current.bind fun last => local_pure _)

theorem local_extendRound (precedence : Precedence) (left : Option Node) :
    Local (extendRound expression precedence left) := by
  refine local_peek.bind fun next => Local.ite ?_ (local_pure _)
  refine local_advance.bind fun _ => Local.bind ?_ fun extended => local_pure _
  refine local_current.bind fun token => ?_
  split
  · exact local_call h left
  · exact local_index h left
  · exact local_binary h left

theorem local_expressionBy (precedence : Precedence) :
    Local (expressionBy expression statement precedence) := by
  refine local_current.bind fun token => ?_
  split
  · exact (local_complain _ _).bind fun _ => local_pure none
  · next rule hr =>
      refine (local_operandRule h hr).bind fun operand => ?_
      exact local_loop (local_extendRound h precedence)
        (h.unbounded.extendWhile precedence operand)

/-! ### Statements -/

omit h in
/-- All forms of a statement end alike. -/
theorem local_ended {step : Parse (Option Node)} (hs : Local step) (start : Token)
    (build : Node → Span → Node) :
    Local (step >>= fun value => skipSemicolon >>= fun _ => spanFrom start >>= fun span =>
      pure (value.map fun v => build v span)) := by
  refine hs.bind fun value => local_skipSemicolon.bind fun _ => ?_
  exact (local_spanFrom start).bind fun span => local_pure _

theorem local_letStatement : Local (letStatement expression) := by
  refine local_current.bind fun start => local_expecting ?_
  refine local_currentName.bind fun name => local_expecting (local_advance.bind fun _ => ?_)
  exact local_ended (h.expression .lowest) start (.letBinding name)

theorem local_returnStatement : Local (returnStatement expression) := by
  refine local_current.bind fun start => local_advance.bind fun _ => ?_
  exact local_ended (h.expression .lowest) start .returning

theorem local_expressionStatement : Local (expressionStatement expression) := by
  refine local_current.bind fun start => ?_
  exact local_ended (h.expression .lowest) start .evaluated

theorem local_statementBy : Local (statementBy expression) := by
  refine local_current.bind fun token => ?_
  split
  · exact local_letStatement h
  · exact local_returnStatement h
  · exact local_expressionStatement h

end Rules

/-! ### Nesting and programs -/

theorem local_readers (depth : Nat) : LocalReaders (expression depth) (statement depth) := by
  have hu : ∀ n, Unbounded (expression n) (statement n) := fun n =>
    unbounded_of_orderly (orderly_expression n) (orderly_statement n)
  induction depth with
  | zero => exact ⟨hu 0, fun _ => local_throw _, local_throw _⟩
  | succ depth ih =>
      refine ⟨hu _, fun precedence => ?_, ?_⟩
      · rw [expression]
        exact local_expressionBy ih precedence
      · rw [statement]
        exact local_statementBy ih

theorem local_guarded {statement : Parse (Option Node)} (h : Local statement) :
    Local (guarded statement) := by
  intro s
  obtain ⟨⟨passed, outcome, listed⟩, hstep⟩ := h s
  cases outcome with
  | ok n =>
      refine ⟨⟨passed, .ok (some n), listed⟩, fun s' hagree => ?_⟩
      rw [guarded, hstep s' hagree]
      rfl
  | error fault =>
      by_cases ht : fault = .tooDeep
      · -- The diagnostic is about the current token, which the streams have in common.
        have hspan : ∀ s' : ParseState, s.stream.AgreeFor (passed + 2) s'.stream →
            (s'.past passed listed).token = s.stream.tokenAt passed := by
          intro s' hagree
          rw [← hagree passed (by omega), ParseState.token, ← TokenStream.tokenAt_zero]
          exact TokenStream.tokenAt_drop _ _ _
        refine ⟨⟨passed, .ok none,
          listed ++ [⟨.nestedTooDeep, (s.stream.tokenAt passed).span⟩]⟩, fun s' hagree => ?_⟩
        rw [guarded, hstep s' hagree, ht, ← hspan s' hagree]
        simp only [Effect.on, ParseState.past, ← List.append_assoc]
        rfl
      · refine ⟨⟨passed, .error fault, listed⟩, fun s' hagree => ?_⟩
        rw [guarded, hstep s' hagree]
        cases fault
        case tooDeep => exact absurd rfl ht
        all_goals rfl

theorem local_programRound (depth : Nat) (ns : List Node) :
    Local (programRound (statement depth) ns) := by
  refine local_current.bind fun token => Local.ite (local_pure _) ?_
  refine (local_guarded (local_readers depth).statement).bind fun next => ?_
  cases next with
  | none => exact local_pure _
  | some next => exact local_advance.bind fun _ => local_pure _

theorem local_program (depth : Nat) : Local (program depth) := by
  refine local_current.bind fun start => ?_
  refine local_loop_bind (local_programRound depth) (local_readers depth).unbounded.programStatements
    fun statements => ?_
  exact (local_spanFrom start).bind fun span => local_pure _

/-! ### Routines -/

namespace Routine

theorem local_run (depth : Nat) (r : Routine) : Local (r.run depth) := by
  have h := local_readers depth
  cases r with
  | advance => exact local_advance.map some
  | expectPeek kind => exact local_expecting (local_pure _)
  | identifier => exact local_identifier
  | integer => exact local_integer
  | boolean => exact local_boolean
  | expressionList closing => exact local_expressionList h closing
  | parameters => exact local_parameters h
  | block => exact (local_block h).map some
  | unary => exact local_unary h
  | grouped => exact local_grouped h
  | conditional => exact local_conditional h
  | functionLiteral => exact local_functionLiteral h
  | arrayLiteral => exact local_arrayLiteral h
  | binary left => exact local_binary h left
  | call callee => exact local_call h callee
  | index collection => exact local_index h collection
  | expression precedence => exact h.expression precedence
  | letStatement => exact local_letStatement h
  | returnStatement => exact local_returnStatement h
  | expressionStatement => exact local_expressionStatement h
  | statement => exact h.statement
  | program => exact (local_program depth).map some

/-- A routine that is called at a position of a stream finishes with an effect, however many ends of the
input are written out in the stream. So the tokens passed over are counted behind its last token too. -/
def Finishes (depth : Nat) (stream : TokenStream) (i : Nat) (diagnostics : List Diagnostic)
    (r : Routine) (effect : Effect (Option r.Part)) : Prop :=
  ∀ n, r.run depth ⟨(stream.withEnds n).drop i, diagnostics⟩ =
    effect.on ⟨(stream.withEnds n).drop i, diagnostics⟩

variable {depth : Nat} {stream : TokenStream} {i : Nat} {diagnostics : List Diagnostic} {r : Routine}
variable {effect : Effect (Option r.Part)}

/-- A routine finishes somewhere, and on all streams that agree up to the token behind that it finishes
there in the same way. -/
theorem exists_finishes (depth : Nat) (r : Routine) (stream : TokenStream) (i : Nat) :
    ∃ effect : Effect (Option r.Part), ∀ stream' diagnostics,
      stream.AgreeFor (i + effect.passed + 2) stream' →
        r.Finishes depth stream' i diagnostics effect := by
  obtain ⟨effect, heffect⟩ := local_run depth r ⟨stream.drop i, []⟩
  refine ⟨effect, fun stream' diagnostics hagree n => heffect _ ?_⟩
  exact (hagree.withEnds n).drop (Nat.le_of_eq (Nat.add_assoc _ _ _).symm)

/-- An effect is known from a run that does not end behind the last token. -/
theorem effect_eq_of_run {n : Nat} {effect' : Effect (Option r.Part)}
    (hn : i + effect.passed < (stream.withEnds n).pending.length)
    (hrun : r.run depth ⟨(stream.withEnds n).drop i, diagnostics⟩ =
      effect.on ⟨(stream.withEnds n).drop i, diagnostics⟩)
    (hrun' : r.run depth ⟨(stream.withEnds n).drop i, diagnostics⟩ =
      effect'.on ⟨(stream.withEnds n).drop i, diagnostics⟩) : effect' = effect := by
  apply Effect.eq_of_on (hrun'.symm.trans hrun)
  rw [ParseState.left, TokenStream.drop, List.length_drop]
  omega

/-- So one such run tells how a routine finishes. -/
theorem finishes_of_run {n : Nat} (hn : i + effect.passed < (stream.withEnds n).pending.length)
    (hrun : r.run depth ⟨(stream.withEnds n).drop i, diagnostics⟩ =
      effect.on ⟨(stream.withEnds n).drop i, diagnostics⟩) :
    r.Finishes depth stream i diagnostics effect := by
  obtain ⟨effect', heffect⟩ := exists_finishes depth r stream i
  have hfinishes := heffect stream diagnostics (.refl _ _)
  rw [← effect_eq_of_run hn hrun (hfinishes n)]
  exact hfinishes

/-- A routine finishes with one effect only. -/
theorem Finishes.unique {effect' : Effect (Option r.Part)}
    (h : r.Finishes depth stream i diagnostics effect)
    (h' : r.Finishes depth stream i diagnostics effect') : effect' = effect := by
  -- Enough ends of the input are written out for the run to end in front of the last one.
  have hn : i + effect.passed < (stream.withEnds (i + effect.passed + 1)).pending.length := by
    rw [TokenStream.length_withEnds]
    omega
  exact effect_eq_of_run hn (h _) (h' _)

end Routine

/-- One token of lookahead. Called at any position of a stream, every routine finishes in exactly one
way: it passes over a number of tokens, ends with a result or a fault and lists diagnostics. If another
stream has the first `k` tokens in common, and so the one behind the token at which the routine
finishes, the routine finishes there in the same way. -/
theorem finishes_of_agreeFor (depth : Nat) (r : Routine) (stream : TokenStream) (i : Nat)
    (diagnostics : List Diagnostic) :
    (∃! effect, r.Finishes depth stream i diagnostics effect) ∧
      ∀ (k : Nat) (stream' : TokenStream) (diagnostics' : List Diagnostic)
        (effect : Effect (Option r.Part)), stream.AgreeFor k stream' →
        r.Finishes depth stream i diagnostics effect → i + effect.passed + 1 < k →
        r.Finishes depth stream' i diagnostics' effect := by
  obtain ⟨effect, heffect⟩ := Routine.exists_finishes depth r stream i
  have hfinishes := heffect stream diagnostics (.refl _ _)
  constructor
  · exact ⟨effect, hfinishes, fun effect' h' => hfinishes.unique h'⟩
  · intro k stream' diagnostics' effect' hagree h' hk
    obtain rfl := hfinishes.unique h'
    exact heffect stream' diagnostics' (hagree.mono hk)

/-- A block that breaks off is read up to the second end of the input. Where a closing brace stands
behind the third one, it is read in the same way. -/
theorem finishes_of_agreeFor_unclosed :
    let stream : TokenStream :=
      { pending := [⟨")", .rightParen, Span.nowhere⟩, ⟨"\x7b", .leftBrace, Span.nowhere⟩,
          ⟨"1", .integer, Span.nowhere⟩, ⟨"+", .plus, Span.nowhere⟩] }
    let stream' : TokenStream :=
      { pending := (stream.withEnds 3).pending ++ [⟨"\x7d", .rightBrace, Span.nowhere⟩] }
    let effect : Effect (Option Node) :=
      ⟨4, .ok (some (.block [] Span.nowhere)),
        [⟨.noOperand (Token.ending Span.nowhere), Span.nowhere⟩]⟩
    stream.AgreeFor 7 stream' ∧ Routine.block.Finishes 9 stream 1 [] effect ∧
      1 + effect.passed + 1 < 7 ∧ Routine.block.Finishes 9 stream' 1 [] effect ∧
      Routine.block.run 9 ⟨stream'.drop 1, []⟩ = effect.on ⟨stream'.drop 1, []⟩ := by
  intro stream stream' effect
  have hagree : stream.AgreeFor 7 stream' := by decide +kernel
  have hfinishes : Routine.block.Finishes 9 stream 1 [] effect :=
    Routine.finishes_of_run (n := 2) (by decide) (by simp only [stream, effect]; rfl)
  have hk : 1 + effect.passed + 1 < 7 := by decide
  have hfinishes' : Routine.block.Finishes 9 stream' 1 [] effect :=
    (finishes_of_agreeFor 9 .block stream 1 []).2 7 stream' [] effect hagree hfinishes hk
  exact ⟨hagree, hfinishes, hk, hfinishes', by simpa using hfinishes' 0⟩

/-- The token behind the one at which a routine finishes does count. -/
example :
    let stream := TokenStream.ofProgram "1 - 2"
    let stream' := TokenStream.ofProgram "1 ; 2"
    stream.AgreeFor 1 stream' ∧
      (after { stream } [⟨.expression .lowest, 9⟩]).stream = stream.drop 2 ∧
      (after { stream := stream' } [⟨.expression .lowest, 9⟩]).stream = stream' := by
  decide +kernel

end Parse

end ExprLang
