import ExprLang.Proofs.Parsing.Loop
import ExprLang.Proofs.Syntax.Tokens

/-!
# No integer is passed over

Whatever a parse leaves out, it reads every integer token up to the end of the input. So a parse
that does not reach the nesting limit has a tree exactly if all these tokens can be read.

## Implementation notes

A reader starts on a token that it has to look at, and it ends on one that has been looked at. These
are the two conditions `Due` and `Done` on a state, for a property that is known to follow once the
integers still to come can be read.
-/

namespace ExprLang

/-- The tokens before the first one that is the end of the input. -/
def Token.beforeEnd (ts : List Token) : List Token :=
  ts.takeWhile (·.kind != .endOfInput)

namespace ParseState

variable {P : Prop} {s : ParseState}

/-- The property holds if the integers from the current token on can be read. -/
def Due (P : Prop) (s : ParseState) : Prop :=
  Token.Readable (Token.beforeEnd s.stream.pending) → P

/-- The property holds if the integers behind the current token can be read. -/
def Done (P : Prop) (s : ParseState) : Prop :=
  s.next.Due P

/-- At the end of the input the property holds. -/
theorem Due.holds (h : s.Due P) (hk : s.token.kind = .endOfInput) : P := by
  apply h
  cases hp : s.stream.pending with
  | nil => exact Token.readable_nil
  | cons t rest =>
      have ht : t.kind = .endOfInput := by simpa [token, TokenStream.head, hp] using hk
      rw [Token.beforeEnd, List.takeWhile_cons_of_neg (by simp [ht])]
      exact Token.readable_nil

theorem Due.done_of_readable (h : s.Due P)
    (hr : s.token.kind = .integer → ∃ value, Text.readInt s.token.text = .ok value) :
    s.Done P := by
  intro hnext
  by_cases hk : s.token.kind = .endOfInput
  · exact h.holds hk
  · apply h
    cases hp : s.stream.pending with
    | nil => exact Token.readable_nil
    | cons t rest =>
        have ht : s.token = t := by simp [token, TokenStream.head, hp]
        rw [next_pending, hp, List.tail_cons] at hnext
        rw [ht] at hr hk
        rw [Token.beforeEnd, List.takeWhile_cons_of_pos (by simpa using hk)]
        exact List.forall_mem_cons.mpr ⟨hr, hnext⟩

theorem Due.done (h : s.Due P) (hk : s.token.kind ≠ .integer) : s.Done P :=
  h.done_of_readable fun hi => absurd hi hk

theorem Done.next (h : s.Done P) (hk : s.next.token.kind ≠ .integer) : s.next.Done P :=
  Due.done h hk

end ParseState

namespace Parse

open ParseState (Due Done)

section Rules

variable {expression : Precedence → Parse (Option Node)} {statement : Parse (Option Node)}
variable (hu : Unbounded expression statement) {P : Prop} {s : ParseState}
variable (he : ∀ p s, s.Due P → Ends (expression p) s (fun _ s' => s'.Done P) anyFault)
variable (hs : ∀ s, s.Due P → Ends statement s (fun _ s' => s'.Done P) anyFault)

/-- A token that is required is no integer. -/
theorem done_expecting {α : Type} {kind : Kind} {step : Parse (Option α)} (hk : kind ≠ .integer)
    (h : s.Done P) (hstep : s.next.Done P → Ends step s.next (fun _ s' => s'.Done P) anyFault) :
    Ends (expecting kind step) s (fun _ s' => s'.Done P) anyFault := by
  rw [ends_expecting]
  split
  · next hkind => exact hstep (h.next (hkind ▸ hk))
  · exact h

/-! ### Lists and blocks -/

include hu he in
theorem done_moreExpressions (h : s.Done P) :
    Ends (moreExpressions expression s.left) s (fun _ s' => s'.Done P) anyFault := by
  apply (hu.moreExpressions s s.left (Nat.le_refl _)).ends _ h
  intro es s h
  simp only [expressionRound, ends_bind, ends_peek, ends_ite, ends_advance, ends_pure]
  split
  · next hk => exact he .lowest _ (h.next (by simp [hk]))
  · exact h

include hu he in
theorem done_expressionList {closing : Kind} (hc : closing ≠ .integer) (h : s.Done P) :
    Ends (expressionList expression closing) s (fun _ s' => s'.Done P) anyFault := by
  simp only [expressionList, ends_bind, ends_peek, ends_ite, ends_advance, ends_pure,
    ends_remaining]
  split
  · next hk => exact h.next (by rw [hk]; exact hc)
  · apply Ends.imp (he .lowest _ h)
    intro first s₁ h₁
    apply Ends.imp (done_moreExpressions hu he h₁)
    intro rest s₂ h₂
    exact done_expecting hc h₂ id

include hu in
theorem done_parameters (h : s.Done P) :
    Ends parameters s (fun _ s' => s'.Done P) anyFault := by
  simp only [parameters, ends_bind, ends_peek, ends_ite, ends_advance, ends_pure]
  split
  · next hk => exact h.next (by simp [hk])
  · apply done_expecting (by decide) h
    intro h₁
    simp only [ends_bind, ends_currentName, ends_remaining]
    have hloop : Ends (moreParameters s.next.left) s.next (fun _ s' => s'.Done P) anyFault := by
      apply (hu.moreParameters s.next s.next.left (Nat.le_refl _)).ends _ h₁
      intro names s h
      simp only [parameterRound, expectPeek, ends_bind, ends_peek, ends_ite, ends_advance,
        ends_complain, ends_currentName, ends_pure]
      split
      · next hk =>
          have hcomma : s.next.Done P := h.next (by simp [hk])
          split
          · next hname => exact hcomma.next (by simp [hname])
          · exact hcomma
      · exact h
    apply Ends.imp hloop
    intro rest s₂ h₂
    cases rest with
    | none => exact h₂
    | some rest => exact done_expecting (by decide) h₂ id

include hu hs in
theorem done_block (h : s.Done P) : Ends (block statement) s (fun _ s' => s'.Done P) anyFault := by
  simp only [block, ends_bind, ends_current, ends_advance, ends_remaining, ends_spanFrom, ends_pure]
  apply (hu.blockStatements s.next s.next.left (Nat.le_refl _)).ends _ (h : s.next.Due P)
  intro ns s h
  simp only [blockRound, ends_bind, ends_current, ends_ite, ends_advance, ends_pure]
  split
  · next hk => exact h.done (by rcases hk with hk | hk <;> simp [hk])
  · exact hs s h

/-! ### Operands -/

include he in
theorem done_unary (h : s.Done P) :
    Ends (unary expression) s (fun _ s' => s'.Done P) anyFault := by
  simp only [unary, ends_bind, ends_current, ends_advance, ends_spanFrom, ends_pure]
  exact he .unary _ h

include he in
theorem done_grouped (h : s.Done P) :
    Ends (grouped expression) s (fun _ s' => s'.Done P) anyFault := by
  simp only [grouped, ends_bind, ends_advance]
  apply Ends.imp (he .lowest _ h)
  intro inner s₁ h₁
  exact done_expecting (by decide) h₁ id

include hu he hs in
theorem done_conditional (h : s.Done P) :
    Ends (conditional expression statement) s (fun _ s' => s'.Done P) anyFault := by
  simp only [conditional, ends_bind, ends_current]
  apply done_expecting (by decide) h
  intro h₁
  simp only [ends_bind, ends_advance]
  apply Ends.imp (he .lowest _ h₁)
  intro condition s₂ h₂
  apply done_expecting (by decide) h₂
  intro h₃
  apply done_expecting (by decide) h₃
  intro h₄
  rw [ends_bind]
  apply Ends.imp (done_block hu hs h₄)
  intro consequence s₅ h₅
  simp only [ends_bind, ends_peek, ends_ite, ends_advance, ends_spanFrom, ends_pure]
  split
  · next hk =>
      have h₆ : s₅.next.Done P := h₅.next (by simp [hk])
      apply done_expecting (by decide) h₆
      intro h₇
      simp only [ends_bind, ends_spanFrom, ends_pure]
      exact done_block hu hs h₇
  · exact h₅

include hu hs in
theorem done_functionLiteral (h : s.Done P) :
    Ends (functionLiteral statement) s (fun _ s' => s'.Done P) anyFault := by
  simp only [functionLiteral, ends_bind, ends_current]
  apply done_expecting (by decide) h
  intro h₁
  rw [ends_bind]
  apply Ends.imp (done_parameters hu h₁)
  intro names s₂ h₂
  cases names with
  | none => exact h₂
  | some names =>
      apply done_expecting (by decide) h₂
      intro h₃
      simp only [ends_bind, ends_spanFrom, ends_pure]
      exact done_block hu hs h₃

include hu he in
theorem done_arrayLiteral (h : s.Done P) :
    Ends (arrayLiteral expression) s (fun _ s' => s'.Done P) anyFault := by
  simp only [arrayLiteral, ends_bind, ends_current, ends_spanFrom, ends_pure]
  exact done_expressionList hu he (by decide) h

/-- An integer token is read or it ends the parse with a fault. -/
theorem done_integer (h : s.Due P) : Ends integer s (fun _ s' => s'.Done P) anyFault := by
  simp only [integer, ends_bind, ends_current]
  cases hr : Text.readInt s.token.text with
  | error reason => exact True.intro
  | ok value =>
      have hd : s.Done P := h.done_of_readable fun _ => ⟨value, hr⟩
      simp only [ends_ite, ends_bind, ends_complain, ends_pure]
      split <;> exact hd

include hu he hs in
theorem done_operandRule {rule : Parse (Option Node)} (h : s.Due P)
    (hr : operandRule? expression statement s.token.kind = some rule) :
    Ends rule s (fun _ s' => s'.Done P) anyFault := by
  have hd : s.token.kind ≠ .integer → s.Done P := h.done
  cases hk : s.token.kind <;> rw [hk] at hr hd <;> cases hr
  case identifier => exact hd (by decide)
  case integer => exact done_integer h
  case trueWord => exact hd (by decide)
  case falseWord => exact hd (by decide)
  case bang => exact done_unary he (hd (by decide))
  case minus => exact done_unary he (hd (by decide))
  case leftParen => exact done_grouped he (hd (by decide))
  case ifWord => exact done_conditional hu he hs (hd (by decide))
  case funcWord => exact done_functionLiteral hu hs (hd (by decide))
  case leftBracket => exact done_arrayLiteral hu he (hd (by decide))

/-! ### Going on from an operand -/

include hu he in
theorem done_extend (left : Option Node) (h : s.Done P) :
    Ends (extend expression left) s (fun _ s' => s'.Done P) anyFault := by
  simp only [extend, ends_bind, ends_current]
  split
  · simp only [call, ends_bind, ends_current, ends_pure]
    exact done_expressionList hu he (by decide) h
  · simp only [index, ends_bind, ends_advance]
    apply Ends.imp (he .lowest _ h)
    intro position s₁ h₁
    exact done_expecting (by decide) h₁ id
  · simp only [binary, ends_bind, ends_current, ends_advance, ends_pure]
    exact he _ _ h

include hu he in
theorem done_extendWhile (precedence : Precedence) (left : Option Node) (h : s.Done P) :
    Ends (extendWhile expression precedence s.left left) s (fun _ s' => s'.Done P) anyFault := by
  apply (hu.extendWhile precedence left s s.left (Nat.le_refl _)).ends _ h
  intro left s h
  simp only [extendRound, ends_bind, ends_peek, ends_ite, ends_advance, ends_pure]
  split
  · next hk =>
      refine done_extend hu he left (h.next fun hi => ?_)
      rw [hi] at hk
      cases precedence <;> simp [Kind.precedence, Kind.precedence?, Precedence.rank] at hk
  · exact h

include hu he hs in
theorem done_expressionBy (precedence : Precedence) (h : s.Due P) :
    Ends (expressionBy expression statement precedence) s (fun _ s' => s'.Done P) anyFault := by
  simp only [expressionBy, ends_bind, ends_current]
  cases hr : operandRule? expression statement s.token.kind with
  | none =>
      have hk : s.token.kind ≠ .integer := by
        intro hk
        simp [hk, operandRule?] at hr
      simp only [ends_bind, ends_complain, ends_pure]
      exact h.done hk
  | some rule =>
      simp only [ends_bind, ends_remaining]
      apply Ends.imp (done_operandRule hu he hs h hr)
      intro operand s₁ h₁
      exact done_extendWhile hu he precedence operand h₁

/-! ### Statements -/

theorem done_skipSemicolon (h : s.Done P) :
    (if s.next.token.kind = .semicolon then s.next else s).Done P := by
  split
  · next hk => exact h.next (by simp [hk])
  · exact h

include he in
theorem done_statementBy (h : s.Due P) :
    Ends (statementBy expression) s (fun _ s' => s'.Done P) anyFault := by
  simp only [statementBy, ends_bind, ends_current]
  split
  · next hk =>
      simp only [letStatement, ends_bind, ends_current]
      apply done_expecting (by decide) (h.done (by simp [hk]))
      intro h₁
      simp only [ends_bind, ends_currentName]
      apply done_expecting (by decide) h₁
      intro h₂
      simp only [ends_bind, ends_advance, ends_skipSemicolon, ends_spanFrom, ends_pure]
      exact Ends.imp (he .lowest _ h₂) fun value s₃ h₃ => done_skipSemicolon h₃
  · next hk =>
      simp only [returnStatement, ends_bind, ends_current, ends_advance, ends_skipSemicolon,
        ends_spanFrom, ends_pure]
      have h₁ : s.next.Due P := h.done (by simp [hk])
      exact Ends.imp (he .lowest _ h₁) fun value s₂ h₂ => done_skipSemicolon h₂
  · simp only [expressionStatement, ends_bind, ends_current, ends_skipSemicolon, ends_spanFrom,
      ends_pure]
    exact Ends.imp (he .lowest _ h) fun value s₁ h₁ => done_skipSemicolon h₁

end Rules

/-! ### Nesting -/

theorem done_readers {P : Prop} (depth : Nat) :
    (∀ p s, s.Due P → Ends (expression depth p) s (fun _ s' => s'.Done P) anyFault) ∧
      ∀ s, s.Due P → Ends (statement depth) s (fun _ s' => s'.Done P) anyFault := by
  induction depth with
  | zero => exact ⟨fun _ _ _ => True.intro, fun _ _ => True.intro⟩
  | succ depth ih =>
      have hu := unbounded_of_orderly (orderly_expression depth) (orderly_statement depth)
      constructor
      · intro p s h
        rw [expression]
        exact done_expressionBy hu ih.1 ih.2 p h
      · intro s h
        rw [statement]
        exact done_statementBy ih.1 h

/-- A program that is read without reaching the nesting limit is read up to the end of the input. -/
theorem programStatements_holds {P : Prop} {s : ParseState} (depth : Nat) (h : s.Due P) :
    Ends (programStatements (statement depth) s.left) s (fun _ s' => s'.Within → P) anyFault := by
  have hu := unbounded_of_orderly (orderly_expression depth) (orderly_statement depth)
  apply (hu.programStatements s s.left (Nat.le_refl _)).ends _ h
  intro ns s h
  simp only [programRound, ends_bind, ends_current, ends_ite, ends_guarded, ends_advance, ends_pure]
  split
  · next hk => exact fun _ => h.holds hk
  · apply Ends.mono ((done_readers depth).2 s h)
    · exact fun next s' h' => h'
    · intro fault s' _
      split
      · exact fun hw => absurd rfl (hw ⟨.nestedTooDeep, s'.token.span⟩ (by simp))
      · exact True.intro

end Parse

/-- A parse that has a tree, and that does not reach the nesting limit, has read all integers. -/
theorem TokenStream.readable_of_parseWithin {stream : TokenStream} {depth : Nat} {parsed : Parsed}
    (h : stream.parseWithin depth = .ok parsed) (hl : parsed.WithinLimit) :
    Token.Readable (Token.beforeEnd stream.pending) := by
  have hend := Parse.programStatements_holds (s := { stream }) depth id
  obtain ⟨statements, span, s, -, hd, hs⟩ := parseWithin_ends hend h
  apply hs
  rw [ParseState.Within, ← hd]
  exact hl

end ExprLang
