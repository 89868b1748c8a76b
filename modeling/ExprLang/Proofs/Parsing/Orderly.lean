import ExprLang.Proofs.Parsing.Run

/-!
# Parsing goes forward and accounts for what it leaves out

From every state, every rule goes on in the stream or stays, and only adds diagnostics. A result
that is missing comes with a diagnostic, and a fault other than that of the nesting limit comes
from an integer token that is still to be read.

## Implementation notes

`OrderlyAt` names the results that count as failed. Behind a step whose result has failed nothing
more has to be accounted for, so the rule for two steps in a row asks of the second one only
failures that the first one did not have.
-/

namespace ExprLang

namespace Parse

/-- A state that a parse comes to from another one. -/
structure Follows (s s' : ParseState) : Prop where
  pending : s'.stream.pending <:+ s.stream.pending
  diagnostics : s.diagnostics <+: s'.diagnostics
  endPlace : s'.stream.endPlace = s.stream.endPlace

namespace Follows

theorem refl (s : ParseState) : Follows s s :=
  ⟨List.suffix_refl _, List.prefix_refl _, rfl⟩

theorem trans {s s' s'' : ParseState} (h : Follows s s') (h' : Follows s' s'') : Follows s s'' :=
  ⟨h'.pending.trans h.pending, h.diagnostics.trans h'.diagnostics, h'.endPlace.trans h.endPlace⟩

theorem next (s : ParseState) : Follows s s.next :=
  ⟨List.tail_suffix _, List.prefix_refl _, rfl⟩

theorem noting (s : ParseState) (complaint : Complaint) (span : Span) :
    Follows s (s.noting complaint span) :=
  ⟨List.suffix_refl _, List.prefix_append _ _, rfl⟩

theorem length_pending_le {s s' : ParseState} (h : Follows s s') :
    s'.stream.pending.length ≤ s.stream.pending.length :=
  h.pending.length_le

theorem length_diagnostics_le {s s' : ParseState} (h : Follows s s') :
    s.diagnostics.length ≤ s'.diagnostics.length :=
  h.diagnostics.length_le

/-- Where a parse adds no diagnostic, it has added none on the way. -/
theorem diagnostics_eq {s s' s'' : ParseState} (h : Follows s s') (h' : Follows s' s'')
    (hd : s''.diagnostics = s.diagnostics) : s'.diagnostics = s.diagnostics := by
  refine (h.diagnostics.eq_of_length_le ?_).symm
  rw [← hd]
  exact h'.length_diagnostics_le

end Follows

/-- A fault is that of the nesting limit, or it comes from an integer token that cannot be read. -/
def Explained (s : ParseState) (fault : Fault) : Prop :=
  fault = .tooDeep ∨
    ∃ t ∈ s.stream.pending, t.kind = .integer ∧
      ∃ reason, Text.readInt t.text = .error reason ∧ fault = .unreadableInteger reason

theorem Explained.of_follows {s s' : ParseState} {fault : Fault} (h : Follows s s')
    (he : Explained s' fault) : Explained s fault := by
  rcases he with ht | ⟨t, ht, hk, hr⟩
  · exact Or.inl ht
  · exact Or.inr ⟨t, h.pending.mem ht, hk, hr⟩

section Orderly

variable {α β : Type} {s : ParseState} {failed failed' : α → Prop}

/-- From a state, a step goes forward, adds diagnostics only, and has a failed result only together
with a new diagnostic. -/
def OrderlyAt (s : ParseState) (failed : α → Prop) (step : Parse α) : Prop :=
  Ends step s
    (fun a s' => Follows s s' ∧ (failed a → s.diagnostics.length < s'.diagnostics.length))
    (fun fault s' => Follows s s' ∧ Explained s fault)

/-- A step that is orderly from every state. -/
def Orderly (failed : α → Prop) (step : Parse α) : Prop :=
  ∀ s, OrderlyAt s failed step

theorem OrderlyAt.imp {step : Parse α} (h : OrderlyAt s failed step)
    (hi : ∀ a, failed' a → failed a) : OrderlyAt s failed' step :=
  Ends.imp h fun a _ hr => ⟨hr.1, fun hf => hr.2 (hi a hf)⟩

theorem OrderlyAt.pure {a : α} (h : ¬ failed a) : OrderlyAt s failed (pure a) :=
  ⟨Follows.refl s, fun hf => absurd hf h⟩

/-- Two steps in a row, where the second has to account for failures of its own only. -/
theorem OrderlyAt.bind {failed' : β → Prop} {step : Parse α} {f : α → Parse β}
    (h : OrderlyAt s failed step)
    (hf : ∀ a s', Follows s s' → OrderlyAt s' (fun b => failed' b ∧ ¬ failed a) (f a)) :
    OrderlyAt s failed' (step >>= f) := by
  refine (ends_bind step f).mpr (Ends.imp h ?_)
  rintro a s' ⟨hs, ha⟩
  refine Ends.mono (hf a s' hs) ?_ ?_
  · rintro b s'' ⟨hs', hb⟩
    refine ⟨hs.trans hs', fun hfail => ?_⟩
    by_cases hfa : failed a
    · exact Nat.lt_of_lt_of_le (ha hfa) hs'.length_diagnostics_le
    · exact Nat.lt_of_le_of_lt hs.length_diagnostics_le (hb ⟨hfail, hfa⟩)
  · rintro fault s'' ⟨hs', he⟩
    exact ⟨hs.trans hs', he.of_follows hs⟩

/-- Two steps in a row of which the first never fails. -/
theorem OrderlyAt.andThen {failed' : β → Prop} {step : Parse α} {f : α → Parse β}
    (h : OrderlyAt s (fun _ => False) step)
    (hf : ∀ a s', Follows s s' → OrderlyAt s' failed' (f a)) :
    OrderlyAt s failed' (step >>= f) :=
  h.bind fun a s' hs => (hf a s' hs).imp fun _ hb => hb.1

theorem OrderlyAt.ite {p : Prop} [Decidable p] {step step' : Parse α}
    (h : p → OrderlyAt s failed step) (h' : ¬ p → OrderlyAt s failed step') :
    OrderlyAt s failed (if p then step else step') := by
  by_cases hp : p
  · rw [if_pos hp]; exact h hp
  · rw [if_neg hp]; exact h' hp

/-! ### Primitives -/

theorem orderly_current : Orderly (fun _ => False) current :=
  fun s => ⟨Follows.refl s, False.elim⟩

theorem orderly_peek : Orderly (fun _ => False) peek :=
  fun s => ⟨Follows.refl s, False.elim⟩

theorem orderly_remaining : Orderly (fun _ => False) remaining :=
  fun s => ⟨Follows.refl s, False.elim⟩

theorem orderly_spanFrom (start : Token) : Orderly (fun _ => False) (spanFrom start) :=
  fun s => ⟨Follows.refl s, False.elim⟩

theorem orderly_currentName : Orderly (fun _ => False) currentName :=
  fun s => ⟨Follows.refl s, False.elim⟩

theorem orderly_advance : Orderly (fun _ => False) advance :=
  fun s => ⟨Follows.next s, False.elim⟩

theorem orderly_complain (complaint : Complaint) (span : Span) :
    Orderly (fun _ => True) (complain complaint span) :=
  fun s => ⟨Follows.noting s complaint span, fun _ => by simp⟩

theorem OrderlyAt.expecting {failed : Option α → Prop} {kind : Kind} {step : Parse (Option α)}
    (h : s.next.token.kind = kind → OrderlyAt s.next failed step) :
    OrderlyAt s failed (expecting kind step) := by
  apply (ends_expecting kind step).mpr
  by_cases hk : s.next.token.kind = kind
  · rw [if_pos hk]
    refine Ends.mono (h hk) ?_ ?_
    · rintro a s' ⟨hs, ha⟩
      exact ⟨(Follows.next s).trans hs, ha⟩
    · rintro fault s' ⟨hs, he⟩
      exact ⟨(Follows.next s).trans hs, he.of_follows (Follows.next s)⟩
  · rw [if_neg hk]
    exact ⟨Follows.noting s _ _, fun _ => by simp⟩

theorem orderly_skipSemicolon : Orderly (fun _ => False) skipSemicolon := by
  intro s
  refine (orderly_peek s).andThen fun next s _ => OrderlyAt.ite (fun _ => ?_) (fun _ => ?_)
  · exact orderly_advance s
  · exact OrderlyAt.pure id

end Orderly

/-! ### Literals and names -/

theorem allPresent_eq_none_iff {α : Type} (items : List (Option α)) :
    allPresent items = none ↔ none ∈ items := by
  induction items with
  | nil => simp [allPresent]
  | cons item rest ih => cases item <;> simp [allPresent, ih]

theorem allPresent_map_some {α : Type} (items : List α) :
    allPresent (items.map some) = some items := by
  induction items with
  | nil => rfl
  | cons item rest ih => simp [allPresent, ih]

/-- The items that are all present are the items of the list. -/
theorem eq_map_some_of_allPresent {α : Type} {items : List (Option α)} {present : List α}
    (h : allPresent items = some present) : items = present.map some := by
  induction items generalizing present with
  | nil =>
      obtain rfl := Option.some.inj h
      rfl
  | cons item rest ih =>
      cases item with
      | none => simp [allPresent] at h
      | some a =>
          obtain ⟨others, ho, rfl⟩ := Option.map_eq_some_iff.mp h
          rw [ih ho, List.map_cons]

theorem orderly_identifier : Orderly (· = none) identifier :=
  fun s => (orderly_current s).andThen fun _ _ _ => OrderlyAt.pure (by simp)

theorem orderly_boolean : Orderly (· = none) boolean :=
  fun s => (orderly_current s).andThen fun _ _ _ => OrderlyAt.pure (by simp)

/-- A token that is not the end of the input is one of those to be read. -/
theorem token_mem_pending {s : ParseState} (h : s.token.kind ≠ .endOfInput) :
    s.token ∈ s.stream.pending := by
  cases hp : s.stream.pending with
  | nil => simp [ParseState.token, TokenStream.head, hp, Token.ending] at h
  | cons t rest => simp [ParseState.token, TokenStream.head, hp]

/-- A token is read as an integer where it stands, and a text that cannot be read is a fault. -/
theorem ends_integer (s : ParseState) :
    Ends integer s
      (fun e s' => Follows s s' ∧ (e = none → s.diagnostics.length < s'.diagnostics.length))
      (fun fault s' => s' = s ∧
        ∃ reason, Text.readInt s.token.text = .error reason ∧ fault = .unreadableInteger reason) := by
  simp only [integer, ends_bind, ends_current]
  cases Text.readInt s.token.text with
  | error reason => exact ⟨rfl, reason, rfl, rfl⟩
  | ok value =>
      simp only [ends_ite, ends_bind, ends_complain, ends_pure]
      by_cases hv : maxInteger < value
      · rw [if_pos hv]
        exact ⟨Follows.noting s _ _, fun _ => by simp⟩
      · rw [if_neg hv]
        exact ⟨Follows.refl s, by simp⟩

theorem orderlyAt_integer {s : ParseState} (h : s.token.kind = .integer) :
    OrderlyAt s (· = none) integer := by
  have hm : s.token ∈ s.stream.pending := token_mem_pending (by simp [h])
  apply Ends.mono (ends_integer s) (fun _ _ hr => hr)
  rintro fault _ ⟨rfl, hr⟩
  exact ⟨Follows.refl _, Or.inr ⟨_, hm, h, hr⟩⟩

section Rules

variable {expression : Precedence → Parse (Option Node)} {statement : Parse (Option Node)}
variable (he : ∀ precedence, Orderly (· = none) (expression precedence))
variable (hs : Orderly (· = none) statement)

/-! ### Lists -/

include he in
theorem orderly_moreExpressions (rounds : Nat) :
    Orderly (none ∈ ·) (moreExpressions expression rounds) := by
  induction rounds with
  | zero => exact fun s => OrderlyAt.pure (by simp)
  | succ rounds ih =>
      intro s
      refine (orderly_peek s).andThen fun next s _ => ?_
      refine OrderlyAt.ite (fun _ => ?_) (fun _ => OrderlyAt.pure (by simp))
      refine (orderly_advance s).andThen fun _ s _ => ?_
      refine (orderly_advance s).andThen fun _ s _ => ?_
      refine (he .lowest s).bind fun next s _ => ?_
      refine (ih s).bind fun rest s _ => OrderlyAt.pure ?_
      rintro ⟨⟨hm, hn⟩, hr⟩
      rcases List.mem_cons.mp hm with h | h
      · exact hn h.symm
      · exact hr h

include he in
theorem orderly_expressionList (closing : Kind) :
    Orderly (· = none) (expressionList expression closing) := by
  intro s
  refine (orderly_peek s).andThen fun next s _ => OrderlyAt.ite (fun _ => ?_) (fun _ => ?_)
  · exact (orderly_advance s).andThen fun _ s _ => OrderlyAt.pure (by simp)
  · refine (orderly_advance s).andThen fun _ s _ => ?_
    refine (he .lowest s).bind fun first s _ => ?_
    refine (orderly_remaining s).andThen fun rounds s _ => ?_
    refine (orderly_moreExpressions he rounds s).bind fun rest s _ => ?_
    refine OrderlyAt.expecting fun _ => OrderlyAt.pure ?_
    rintro ⟨⟨hm, hn⟩, hr⟩
    rcases List.mem_cons.mp ((allPresent_eq_none_iff _).mp hm) with h | h
    · exact hn h.symm
    · exact hr h

theorem orderly_moreParameters (rounds : Nat) : Orderly (· = none) (moreParameters rounds) := by
  induction rounds with
  | zero => exact fun s => OrderlyAt.pure (by simp)
  | succ rounds ih =>
      intro s
      refine (orderly_peek s).andThen fun next s _ => ?_
      refine OrderlyAt.ite (fun _ => ?_) (fun _ => OrderlyAt.pure (by simp))
      refine (orderly_advance s).andThen fun _ s _ => OrderlyAt.expecting fun _ => ?_
      refine (orderly_currentName _).andThen fun name s _ => ?_
      refine (ih s).bind fun rest s _ => OrderlyAt.pure ?_
      simp

theorem orderly_parameters : Orderly (· = none) parameters := by
  intro s
  refine (orderly_peek s).andThen fun next s _ => OrderlyAt.ite (fun _ => ?_) (fun _ => ?_)
  · exact (orderly_advance s).andThen fun _ s _ => OrderlyAt.pure (by simp)
  · refine OrderlyAt.expecting fun _ => ?_
    refine (orderly_currentName _).andThen fun first s _ => ?_
    refine (orderly_remaining s).andThen fun rounds s _ => ?_
    refine (orderly_moreParameters rounds s).bind fun rest s _ => ?_
    cases rest with
    | none => exact OrderlyAt.pure (by simp)
    | some rest => exact OrderlyAt.expecting fun _ => OrderlyAt.pure (by simp)

/-! ### Blocks -/

include hs in
theorem orderly_blockStatements (rounds : Nat) :
    Orderly (fun _ => False) (blockStatements statement rounds) := by
  induction rounds with
  | zero => exact fun s => OrderlyAt.pure id
  | succ rounds ih =>
      intro s
      refine (orderly_current s).andThen fun token s _ => ?_
      refine OrderlyAt.ite (fun _ => OrderlyAt.pure id) (fun _ => ?_)
      refine (hs s).bind fun next s _ => ?_
      refine (orderly_advance s).andThen fun _ s _ => ?_
      exact (ih s).andThen fun rest s _ => OrderlyAt.pure (by simp)

include hs in
theorem orderly_block : Orderly (fun _ => False) (block statement) := by
  intro s
  refine (orderly_current s).andThen fun start s _ => ?_
  refine (orderly_advance s).andThen fun _ s _ => ?_
  refine (orderly_remaining s).andThen fun rounds s _ => ?_
  refine (orderly_blockStatements hs rounds s).andThen fun statements s _ => ?_
  exact (orderly_spanFrom start s).andThen fun span s _ => OrderlyAt.pure id

/-! ### Operands -/

include he in
theorem orderly_unary : Orderly (· = none) (unary expression) := by
  intro s
  refine (orderly_current s).andThen fun operator s _ => ?_
  refine (orderly_advance s).andThen fun _ s _ => ?_
  refine (he .unary s).bind fun operand s _ => ?_
  exact (orderly_spanFrom operator s).andThen fun span s _ => OrderlyAt.pure (by simp)

include he in
theorem orderly_grouped : Orderly (· = none) (grouped expression) := by
  intro s
  refine (orderly_advance s).andThen fun _ s _ => ?_
  refine (he .lowest s).bind fun inner s _ => ?_
  exact OrderlyAt.expecting fun _ => OrderlyAt.pure (by simp)

include he hs in
theorem orderly_conditional : Orderly (· = none) (conditional expression statement) := by
  intro s
  refine (orderly_current s).andThen fun start s _ => OrderlyAt.expecting fun _ => ?_
  refine (orderly_advance _).andThen fun _ s _ => ?_
  refine (he .lowest s).bind fun condition s _ => ?_
  refine OrderlyAt.expecting fun _ => OrderlyAt.expecting fun _ => ?_
  refine (orderly_block hs _).andThen fun consequence s _ => ?_
  refine (orderly_peek s).andThen fun next s _ => OrderlyAt.ite (fun _ => ?_) (fun _ => ?_)
  · refine (orderly_advance s).andThen fun _ s _ => OrderlyAt.expecting fun _ => ?_
    refine (orderly_block hs _).andThen fun alternative s _ => ?_
    exact (orderly_spanFrom start s).andThen fun span s _ => OrderlyAt.pure (by simp)
  · exact (orderly_spanFrom start s).andThen fun span s _ => OrderlyAt.pure (by simp)

include hs in
theorem orderly_functionLiteral : Orderly (· = none) (functionLiteral statement) := by
  intro s
  refine (orderly_current s).andThen fun start s _ => OrderlyAt.expecting fun _ => ?_
  refine (orderly_parameters _).bind fun names s _ => ?_
  cases names with
  | none => exact OrderlyAt.pure (by simp)
  | some names =>
      refine OrderlyAt.expecting fun _ => ?_
      refine (orderly_block hs _).andThen fun body s _ => ?_
      exact (orderly_spanFrom start s).andThen fun span s _ => OrderlyAt.pure (by simp)

include he in
theorem orderly_arrayLiteral : Orderly (· = none) (arrayLiteral expression) := by
  intro s
  refine (orderly_current s).andThen fun start s _ => ?_
  refine (orderly_expressionList he .rightBracket s).bind fun elements s _ => ?_
  exact (orderly_spanFrom start s).andThen fun span s _ => OrderlyAt.pure (by simp)

include he hs in
theorem orderlyAt_operandRule {s : ParseState} {rule : Parse (Option Node)}
    (h : operandRule? expression statement s.token.kind = some rule) :
    OrderlyAt s (· = none) rule := by
  cases hk : s.token.kind <;> rw [hk] at h <;> cases h
  case identifier => exact orderly_identifier s
  case integer => exact orderlyAt_integer hk
  case trueWord => exact orderly_boolean s
  case falseWord => exact orderly_boolean s
  case bang => exact orderly_unary he s
  case minus => exact orderly_unary he s
  case leftParen => exact orderly_grouped he s
  case ifWord => exact orderly_conditional he hs s
  case funcWord => exact orderly_functionLiteral hs s
  case leftBracket => exact orderly_arrayLiteral he s

/-! ### Going on from an operand -/

include he in
theorem orderly_binary (left : Option Node) :
    Orderly (fun e => e = none ∧ left ≠ none) (binary expression left) := by
  intro s
  refine (orderly_current s).andThen fun operator s _ => ?_
  refine (orderly_advance s).andThen fun _ s _ => ?_
  refine (he operator.kind.precedence s).bind fun right s _ => OrderlyAt.pure ?_
  cases left <;> cases right <;> simp

include he in
theorem orderly_call (callee : Option Node) :
    Orderly (fun e => e = none ∧ callee ≠ none) (call expression callee) := by
  intro s
  refine (orderly_expressionList he .rightParen s).bind fun arguments s _ => ?_
  refine (orderly_current s).andThen fun last s _ => OrderlyAt.pure ?_
  cases callee <;> cases arguments <;> simp

include he in
theorem orderly_index (collection : Option Node) :
    Orderly (fun e => e = none ∧ collection ≠ none) (index expression collection) := by
  intro s
  refine (orderly_advance s).andThen fun _ s _ => ?_
  refine (he .lowest s).bind fun position s _ => OrderlyAt.expecting fun _ => ?_
  refine (orderly_current _).andThen fun last s _ => OrderlyAt.pure ?_
  cases collection <;> cases position <;> simp

include he in
theorem orderly_extend (left : Option Node) :
    Orderly (fun e => e = none ∧ left ≠ none) (extend expression left) := by
  intro s
  refine (orderly_current s).andThen fun token s _ => ?_
  split
  · exact orderly_call he left s
  · exact orderly_index he left s
  · exact orderly_binary he left s

include he in
theorem orderly_extendWhile (precedence : Precedence) (rounds : Nat) (left : Option Node) :
    Orderly (fun e => e = none ∧ left ≠ none) (extendWhile expression precedence rounds left) := by
  induction rounds generalizing left with
  | zero => exact fun s => OrderlyAt.pure (by simp)
  | succ rounds ih =>
      intro s
      refine (orderly_peek s).andThen fun next s _ => ?_
      refine OrderlyAt.ite (fun _ => ?_) (fun _ => OrderlyAt.pure (by simp))
      refine (orderly_advance s).andThen fun _ s _ => ?_
      refine (orderly_extend he left s).bind fun extended s _ => ?_
      exact (ih extended s).imp fun e hf => ⟨hf.1.1, fun hn => hf.2 ⟨hn, hf.1.2⟩⟩

include he hs in
theorem orderly_expressionBy (precedence : Precedence) :
    Orderly (· = none) (expressionBy expression statement precedence) := by
  intro s
  simp only [OrderlyAt, expressionBy, ends_bind, ends_current]
  cases hr : operandRule? expression statement s.token.kind with
  | none =>
      exact (orderly_complain _ _ s).bind fun _ s _ => OrderlyAt.pure (by simp)
  | some rule =>
      refine (orderlyAt_operandRule he hs hr).bind fun operand s _ => ?_
      refine (orderly_remaining s).andThen fun rounds s _ => ?_
      exact orderly_extendWhile he precedence rounds operand s

/-! ### Statements -/

include he in
theorem orderly_letStatement : Orderly (· = none) (letStatement expression) := by
  intro s
  refine (orderly_current s).andThen fun start s _ => OrderlyAt.expecting fun _ => ?_
  refine (orderly_currentName _).andThen fun name s _ => OrderlyAt.expecting fun _ => ?_
  refine (orderly_advance _).andThen fun _ s _ => ?_
  refine (he .lowest s).bind fun value s _ => ?_
  refine (orderly_skipSemicolon s).andThen fun _ s _ => ?_
  exact (orderly_spanFrom start s).andThen fun span s _ => OrderlyAt.pure (by simp)

include he in
theorem orderly_returnStatement : Orderly (· = none) (returnStatement expression) := by
  intro s
  refine (orderly_current s).andThen fun start s _ => ?_
  refine (orderly_advance s).andThen fun _ s _ => ?_
  refine (he .lowest s).bind fun value s _ => ?_
  refine (orderly_skipSemicolon s).andThen fun _ s _ => ?_
  exact (orderly_spanFrom start s).andThen fun span s _ => OrderlyAt.pure (by simp)

include he in
theorem orderly_expressionStatement : Orderly (· = none) (expressionStatement expression) := by
  intro s
  refine (orderly_current s).andThen fun start s _ => ?_
  refine (he .lowest s).bind fun value s _ => ?_
  refine (orderly_skipSemicolon s).andThen fun _ s _ => ?_
  exact (orderly_spanFrom start s).andThen fun span s _ => OrderlyAt.pure (by simp)

include he in
theorem orderly_statementBy : Orderly (· = none) (statementBy expression) := by
  intro s
  refine (orderly_current s).andThen fun token s _ => ?_
  split
  · exact orderly_letStatement he s
  · exact orderly_returnStatement he s
  · exact orderly_expressionStatement he s

end Rules

/-! ### Nesting -/

/-- Expressions and statements of every depth are read in an orderly way. -/
theorem orderly_readers (depth : Nat) :
    (∀ precedence, Orderly (· = none) (expression depth precedence)) ∧
      Orderly (· = none) (statement depth) := by
  induction depth with
  | zero =>
      exact ⟨fun _ s => ⟨Follows.refl s, Or.inl rfl⟩, fun s => ⟨Follows.refl s, Or.inl rfl⟩⟩
  | succ depth ih =>
      refine ⟨fun precedence => ?_, ?_⟩
      · rw [expression]; exact orderly_expressionBy ih.1 ih.2 precedence
      · rw [statement]; exact orderly_statementBy ih.1

theorem orderly_expression (depth : Nat) (precedence : Precedence) :
    Orderly (· = none) (expression depth precedence) :=
  (orderly_readers depth).1 precedence

theorem orderly_statement (depth : Nat) : Orderly (· = none) (statement depth) :=
  (orderly_readers depth).2

end Parse

end ExprLang
