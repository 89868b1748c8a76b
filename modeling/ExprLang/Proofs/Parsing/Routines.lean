import ExprLang.Proofs.Parsing.Program

/-!
# The routines of a parser

Every rule of the grammar is a routine that can be called by itself, at whatever token a parse stands,
and also behind a routine that ended with a fault. No sequence of calls goes back in the stream or takes
a diagnostic away, and a call that has no result has listed why.

## Implementation notes

The routines are the constructors of one type, so a statement about all of them is one statement and a
sequence of calls is a list. Only the rules that go on from a left operand can be without a result and
without a diagnostic: the operand may be missing, which was listed where it went missing.
-/

namespace ExprLang

namespace Parse

/-- The routines that can be called in a parse. -/
inductive Routine where
  | advance
  | expectPeek (kind : Kind)
  | identifier
  | integer
  | boolean
  | expressionList (closing : Kind)
  | parameters
  | block
  | unary
  | grouped
  | conditional
  | functionLiteral
  | arrayLiteral
  | binary (left : Option Node)
  | call (callee : Option Node)
  | index (collection : Option Node)
  | expression (precedence : Precedence)
  | letStatement
  | returnStatement
  | expressionStatement
  | statement
  | program

namespace Routine

/-- What a routine reads. -/
abbrev Part : Routine → Type
  | .advance | .expectPeek _ => Unit
  | .expressionList _ => List Node
  | .parameters => List Name
  | _ => Node

/-- Runs a routine whose nested expressions and statements have at most `depth` levels. -/
def run (depth : Nat) : (r : Routine) → Parse (Option r.Part)
  | .advance => some <$> Parse.advance
  | .expectPeek kind => expecting kind (return some ())
  | .identifier => Parse.identifier
  | .integer => Parse.integer
  | .boolean => Parse.boolean
  | .expressionList closing => Parse.expressionList (Parse.expression depth) closing
  | .parameters => Parse.parameters
  | .block => some <$> Parse.block (Parse.statement depth)
  | .unary => Parse.unary (Parse.expression depth)
  | .grouped => Parse.grouped (Parse.expression depth)
  | .conditional => Parse.conditional (Parse.expression depth) (Parse.statement depth)
  | .functionLiteral => Parse.functionLiteral (Parse.statement depth)
  | .arrayLiteral => Parse.arrayLiteral (Parse.expression depth)
  | .binary left => Parse.binary (Parse.expression depth) left
  | .call callee => Parse.call (Parse.expression depth) callee
  | .index collection => Parse.index (Parse.expression depth) collection
  | .expression precedence => Parse.expression depth precedence
  | .letStatement => Parse.letStatement (Parse.expression depth)
  | .returnStatement => Parse.returnStatement (Parse.expression depth)
  | .expressionStatement => Parse.expressionStatement (Parse.expression depth)
  | .statement => Parse.statement depth
  | .program => some <$> Parse.program depth

/-- Whether a routine goes on from a left operand that is missing. -/
def lacksOperand : Routine → Bool
  | .binary none | .call none | .index none => true
  | _ => false

/-- From a state, a routine goes forward and adds diagnostics only, also up to a fault. It is without a
result only together with a new diagnostic, unless it lacks the operand to go on from. -/
def AccountsAt (depth : Nat) (s : ParseState) (r : Routine) : Prop :=
  Ends (r.run depth) s
    (fun part s' => Follows s s' ∧
      (part = none → r.lacksOperand = false → s.diagnostics.length < s'.diagnostics.length))
    (fun _ s' => Follows s s')

end Routine

/-! ### One call -/

section Call

variable {α : Type} {s : ParseState}

/-- A step that never fails is one that always has a result. -/
theorem OrderlyAt.map_some {step : Parse α} (h : OrderlyAt s (fun _ => False) step) :
    OrderlyAt s (· = none) (some <$> step) := by
  apply (ends_map step some).mpr
  exact Ends.imp h fun _ _ hr => ⟨hr.1, by simp⟩

theorem orderly_program (depth : Nat) : Orderly (fun _ => False) (program depth) := by
  intro s
  refine (orderly_current s).andThen fun start s _ => ?_
  refine (orderly_remaining s).andThen fun rounds s _ => ?_
  have hs : OrderlyAt s (fun _ => False) (programStatements (statement depth) rounds) :=
    (programStatements_orderly (orderly_statement depth) rounds).mono
      (fun _ _ hf => ⟨hf, False.elim⟩) (fun _ _ hf => ⟨hf.1, hf.2.1⟩)
  refine hs.andThen fun statements s _ => ?_
  exact (orderly_spanFrom start s).andThen fun span s _ => OrderlyAt.pure id

namespace Routine

variable {depth : Nat} {r : Routine}

theorem AccountsAt.of_orderly (h : OrderlyAt s (· = none) (r.run depth)) : r.AccountsAt depth s :=
  Ends.mono h (fun _ _ hr => ⟨hr.1, fun hn _ => hr.2 hn⟩) (fun _ _ hf => hf.1)

/-- A routine that goes on from an operand accounts for its result if the operand is there. -/
theorem AccountsAt.of_operand {left : Option Node}
    (h : OrderlyAt s (fun part => part = none ∧ left ≠ none) (r.run depth))
    (hleft : r.lacksOperand = false → left ≠ none) : r.AccountsAt depth s :=
  Ends.mono h (fun _ _ hr => ⟨hr.1, fun hn hl => hr.2 ⟨hn, hleft hl⟩⟩) (fun _ _ hf => hf.1)

/-- Here the current token may be of any kind, so a fault need not come from an integer token. -/
theorem accountsAt_integer (depth : Nat) (s : ParseState) : integer.AccountsAt depth s := by
  apply Ends.mono (ends_integer s)
  · intro part s' hr
    exact ⟨hr.1, fun hn _ => hr.2 hn⟩
  · rintro fault _ ⟨rfl, -⟩
    exact Follows.refl _

theorem accountsAt (depth : Nat) (s : ParseState) (r : Routine) : r.AccountsAt depth s := by
  obtain ⟨he, hs⟩ := orderly_readers depth
  cases r with
  | advance => exact .of_orderly (orderly_advance s).map_some
  | expectPeek kind =>
      exact .of_orderly (OrderlyAt.expecting fun _ => OrderlyAt.pure (by simp))
  | identifier => exact .of_orderly (orderly_identifier s)
  | integer => exact accountsAt_integer depth s
  | boolean => exact .of_orderly (orderly_boolean s)
  | expressionList closing => exact .of_orderly (orderly_expressionList he closing s)
  | parameters => exact .of_orderly (orderly_parameters s)
  | block => exact .of_orderly (orderly_block hs s).map_some
  | unary => exact .of_orderly (orderly_unary he s)
  | grouped => exact .of_orderly (orderly_grouped he s)
  | conditional => exact .of_orderly (orderly_conditional he hs s)
  | functionLiteral => exact .of_orderly (orderly_functionLiteral hs s)
  | arrayLiteral => exact .of_orderly (orderly_arrayLiteral he s)
  | binary left =>
      exact .of_operand (orderly_binary he left s) (by cases left <;> simp [lacksOperand])
  | call callee =>
      exact .of_operand (orderly_call he callee s) (by cases callee <;> simp [lacksOperand])
  | index collection =>
      exact .of_operand (orderly_index he collection s)
        (by cases collection <;> simp [lacksOperand])
  | expression precedence => exact .of_orderly (he precedence s)
  | letStatement => exact .of_orderly (orderly_letStatement he s)
  | returnStatement => exact .of_orderly (orderly_returnStatement he s)
  | expressionStatement => exact .of_orderly (orderly_expressionStatement he s)
  | statement => exact .of_orderly (hs s)
  | program => exact .of_orderly (orderly_program depth s).map_some

end Routine

end Call

/-! ### Calls in a row -/

/-- A call of a routine. -/
structure Call where
  routine : Routine
  depth : Nat

/-- The state that a call leaves, whether it ends with a result or with a fault. -/
def Call.leaves (s : ParseState) (call : Call) : ParseState :=
  match call.routine.run call.depth s with
  | .ok _ s' => s'
  | .error _ s' => s'

/-- The state behind a sequence of calls. -/
def after (s : ParseState) (calls : List Call) : ParseState :=
  calls.foldl Call.leaves s

theorem Call.follows_leaves (s : ParseState) (call : Call) : Follows s (call.leaves s) := by
  have haccounts := Routine.accountsAt call.depth s call.routine
  unfold Routine.AccountsAt Ends at haccounts
  unfold leaves
  cases hrun : call.routine.run call.depth s with
  | ok part s' =>
      rw [hrun] at haccounts
      exact haccounts.1
  | error fault s' =>
      rw [hrun] at haccounts
      exact haccounts

theorem follows_after (s : ParseState) (calls : List Call) : Follows s (after s calls) := by
  induction calls generalizing s with
  | nil => exact Follows.refl s
  | cons call rest ih => exact (call.follows_leaves s).trans (ih _)

/-- Nothing is dropped silently. Behind any sequence of calls, from any state and whatever faults there
were, the stream has only gone forward and the diagnostics are all still there, and the next call of any
routine keeps both and lists a diagnostic where it has no result. -/
theorem accountsAt_after (s : ParseState) (calls : List Call) (depth : Nat) (r : Routine) :
    Follows s (after s calls) ∧ r.AccountsAt depth (after s calls) :=
  ⟨follows_after s calls, r.accountsAt depth (after s calls)⟩

/-- A number is no name: the first two calls have no result and list why. The last one goes on from an
operand that is missing, so it has no result and lists nothing. -/
example :
    let s : ParseState := { stream := TokenStream.ofProgram "1 2 * 3" }
    let s' := after s [⟨.letStatement, 9⟩, ⟨.parameters, 9⟩, ⟨.advance, 9⟩, ⟨.advance, 9⟩,
      ⟨.binary none, 9⟩]
    s'.diagnostics.length = 2 ∧ s'.stream.pending = [⟨"3", .integer, .onLine 1 6 7⟩] := by
  decide +kernel

end Parse

end ExprLang
