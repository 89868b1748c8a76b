import ExprLang.Proofs.Parsing.Depth
import ExprLang.Proofs.Syntax.WellFormed

/-!
# What diagnostics are charged to

A diagnostic about the current token is charged to that token. A diagnostic about the next token is
charged to a token that was passed over: the one that opened the rule which asks for another kind. So
every rule starts at a token that is free and ends when that token has been spent, and a rule that
demands something keeps back a token of its own, its credit, while the readers that it calls are at
work. Between two readers the parse always goes on by a token; in particular no rule lists a diagnostic
about the current token once one about the next token has been listed there.

## Implementation notes

What it means for a token to be free or spent is left open. `Charging` has the laws of the two notions,
and the rules are followed once for all notions that obey the laws. Both are given for a number of
credits, the tokens before the current one that can still be charged.
-/

namespace ExprLang

namespace ParseState

@[simp] theorem noting_left (s : ParseState) (complaint : Complaint) (span : Span) :
    (s.noting complaint span).left = s.left := rfl

/-- At the end of the input there is no next token to go on to. -/
theorem next_eq_self {s : ParseState} (h : s.left = 0) : s.next = s := by
  obtain ⟨⟨pending, endPlace⟩, diagnostics⟩ := s
  obtain rfl : pending = [] := List.length_eq_zero_iff.mp h
  rfl

end ParseState

namespace Parse

/-- Laws for states in which the current token is free to be charged with a diagnostic, or has been
spent, while a number of tokens before it can still be charged. -/
structure Charging (free spent : Nat → ParseState → Prop) : Prop where
  free_of_succ {n : Nat} {s : ParseState} (h : free (n + 1) s) : free n s
  spent_of_succ {n : Nat} {s : ParseState} (h : spent (n + 1) s) : spent n s
  /-- A free token that is kept back can be charged later. -/
  keep {n : Nat} {s : ParseState} (h : free n s) : spent (n + 1) s
  /-- The token behind one that has been spent is free. -/
  next {n : Nat} {s : ParseState} (h : spent n s) (hs : 0 < s.left) : free n s.next
  /-- A diagnostic about the current token is charged to it. -/
  current {n : Nat} {s : ParseState} (h : free n s) (complaint : Complaint) :
    spent n (s.noting complaint s.token.span)
  /-- A diagnostic about the next token is charged to one that was kept back. -/
  ahead {n : Nat} {s : ParseState} (h : spent (n + 1) s) (complaint : Complaint) :
    spent n (s.noting complaint s.next.token.span)

namespace Charging

variable {free spent : Nat → ParseState → Prop}

variable (free spent) in
/-- A step from a state spends the token at which it ends, and a fault comes at a token that is free. -/
def Pays {α : Type} (n : Nat) (s : ParseState) (step : Parse α) : Prop :=
  Ends step s (fun _ => spent n) (fun _ => free n)

variable (free spent) in
/-- The current token is free, or the input has come to its end. -/
def Ready (n : Nat) (s : ParseState) : Prop :=
  free n s ∨ s.token.kind = .endOfInput ∧ spent n s

variable (hc : Charging free spent) {α : Type} {n : Nat} {s : ParseState}

include hc

theorem spent_of_free (h : free n s) : spent n s :=
  hc.spent_of_succ (hc.keep h)

/-- At the end of a rule the token that it kept back is given up. -/
theorem spent_of_free_succ (h : free (n + 1) s) : spent n s :=
  hc.spent_of_free (hc.free_of_succ h)

theorem spent_of_ready (h : Ready free spent n s) : spent n s :=
  h.elim hc.spent_of_free And.right

/-- The next token is free if it is not the end of the input. -/
theorem free_next (h : spent n s) (hk : s.next.token.kind ≠ .endOfInput) : free n s.next := by
  have hl := ParseState.left_pos hk
  rw [ParseState.next_left] at hl
  exact hc.next h (by omega)

/-- Passing over a free token keeps it back. -/
theorem free_behind (h : free n s) (hk : s.token.kind ≠ .endOfInput) : free (n + 1) s.next :=
  hc.next (hc.keep h) (ParseState.left_pos hk)

theorem ready_next (h : spent n s) : Ready free spent n s.next := by
  by_cases hl : 0 < s.left
  · exact Or.inl (hc.next h hl)
  · have hself := ParseState.next_eq_self (Nat.eq_zero_of_not_pos hl)
    have hk : s.token.kind = .endOfInput :=
      Decidable.byContradiction fun hk => hl (ParseState.left_pos hk)
    rw [hself]
    exact Or.inr ⟨hk, h⟩

/-! ### Steps in a row -/

/-- What comes behind a step for which a token was kept back. -/
theorem after {step : Parse α} {onResult : α → ParseState → Prop}
    (h : Pays free spent (n + 1) s step) (hr : ∀ a s', spent (n + 1) s' → onResult a s') :
    Ends step s onResult (fun _ => free n) :=
  h.mono hr fun _ _ => hc.free_of_succ

/-- A kind that is demanded, where a token was kept back for it. -/
theorem expecting {kind : Kind} {step : Parse (Option α)} (hkind : kind ≠ .endOfInput)
    (h : spent (n + 1) s)
    (hstep : s.next.token.kind = kind → free (n + 1) s.next → Pays free spent n s.next step) :
    Pays free spent n s (Parse.expecting kind step) := by
  apply (ends_expecting kind step).mpr
  split
  case isTrue hk =>
    apply hstep hk
    apply hc.free_next h
    rw [hk]
    exact hkind
  case isFalse => exact hc.ahead h _

theorem skipSemicolon (h : spent n s) : Pays free spent n s Parse.skipSemicolon := by
  apply ends_skipSemicolon.mpr
  split
  case isTrue hk => exact hc.spent_of_free (hc.free_next h (by simp [hk]))
  case isFalse => exact h

theorem integer (h : free n s) : Pays free spent n s Parse.integer := by
  simp only [Pays, Parse.integer, ends_bind, ends_current]
  cases Text.readInt s.token.text with
  | error reason => exact h
  | ok value =>
      simp only [ends_ite, ends_bind, ends_complain, ends_pure]
      split
      · exact hc.current h _
      · exact hc.spent_of_free h

section Rules

variable {expression : Precedence → Parse (Option Node)} {statement : Parse (Option Node)}
variable (he : ∀ p n s, free n s → Pays free spent n s (expression p))
variable (hs : ∀ n s, free n s → Pays free spent n s statement)

/-! ### Lists -/

include he in
theorem moreExpressions (rounds : Nat) (h : spent n s) :
    Pays free spent n s (Parse.moreExpressions expression rounds) := by
  induction rounds generalizing s with
  | zero => exact h
  | succ rounds ih =>
      simp only [Pays, Parse.moreExpressions, ends_bind, ends_peek, ends_ite, ends_advance,
        ends_pure]
      split
      case isTrue hk =>
        have hcomma : s.next.token.kind ≠ .endOfInput := by simp [hk]
        have hfree := hc.free_behind (hc.free_next h hcomma) hcomma
        apply (he .lowest n _ (hc.free_of_succ hfree)).imp
        intro next s₁ h₁
        exact ih h₁
      case isFalse => exact h

include he in
theorem expressionList {closing : Kind} (hkind : closing ≠ .endOfInput) (h : free n s)
    (hk : s.token.kind ≠ .endOfInput) :
    Pays free spent n s (Parse.expressionList expression closing) := by
  have hfree := hc.free_behind h hk
  simp only [Pays, Parse.expressionList, ends_bind, ends_peek, ends_ite, ends_advance, ends_pure,
    ends_remaining]
  split
  · exact hc.spent_of_free_succ hfree
  · -- The opening bracket is kept back for the closing one.
    apply hc.after (he .lowest (n + 1) _ hfree)
    intro first s₁ h₁
    apply hc.after (hc.moreExpressions he _ h₁)
    intro rest s₂ h₂
    apply hc.expecting hkind h₂
    intro _ h₃
    exact hc.spent_of_free_succ h₃

theorem moreParameters (rounds : Nat) (h : spent n s) :
    Pays free spent n s (Parse.moreParameters rounds) := by
  induction rounds generalizing s with
  | zero => exact h
  | succ rounds ih =>
      simp only [Pays, Parse.moreParameters, ends_bind, ends_peek, ends_ite, ends_advance, ends_pure]
      split
      case isTrue hk =>
        -- The comma is kept back for the name behind it.
        have hcomma := hc.free_next h (by simp [hk])
        apply hc.expecting Kind.noConfusion (hc.keep hcomma)
        intro _ h₁
        simp only [Pays, ends_bind, ends_currentName, ends_pure]
        exact ih (hc.spent_of_free_succ h₁)
      case isFalse => exact h

theorem parameters (h : free n s) : Pays free spent n s Parse.parameters := by
  simp only [Pays, Parse.parameters, ends_bind, ends_peek, ends_ite, ends_advance, ends_pure]
  split
  case isTrue hk => exact hc.spent_of_free (hc.free_next (hc.spent_of_free h) (by simp [hk]))
  case isFalse =>
    apply hc.expecting Kind.noConfusion (hc.keep h)
    intro _ h₁
    simp only [Pays, ends_bind, ends_currentName, ends_remaining]
    apply hc.after (hc.moreParameters _ (hc.spent_of_free h₁))
    intro rest s₂ h₂
    cases rest with
    | none => exact hc.spent_of_succ h₂
    | some rest =>
        apply hc.expecting Kind.noConfusion h₂
        intro _ h₃
        exact hc.spent_of_free_succ h₃

/-! ### Blocks -/

include hs in
theorem blockStatements (rounds : Nat) (h : Ready free spent n s) :
    Pays free spent n s (Parse.blockStatements statement rounds) := by
  induction rounds generalizing s with
  | zero => exact hc.spent_of_ready h
  | succ rounds ih =>
      simp only [Pays, Parse.blockStatements, ends_bind, ends_current, ends_ite, ends_advance,
        ends_pure]
      split
      case isTrue => exact hc.spent_of_ready h
      case isFalse hk =>
        have hfree : free n s := h.resolve_right fun hend => hk (Or.inr hend.1)
        apply (hs n s hfree).imp
        intro next s₁ h₁
        exact ih (hc.ready_next h₁)

include hs in
theorem block (h : spent n s) : Pays free spent n s (Parse.block statement) := by
  simp only [Pays, Parse.block, ends_bind, ends_current, ends_advance, ends_remaining,
    ends_spanFrom, ends_pure]
  exact hc.blockStatements hs _ (hc.ready_next h)

/-! ### Operands -/

include he in
theorem unary (h : free n s) (hk : s.token.kind ≠ .endOfInput) :
    Pays free spent n s (Parse.unary expression) := by
  simp only [Pays, Parse.unary, ends_bind, ends_current, ends_advance, ends_spanFrom, ends_pure]
  exact he .unary n _ (hc.free_of_succ (hc.free_behind h hk))

include he in
theorem grouped (h : free n s) (hk : s.token.kind ≠ .endOfInput) :
    Pays free spent n s (Parse.grouped expression) := by
  simp only [Pays, Parse.grouped, ends_bind, ends_advance]
  apply hc.after (he .lowest (n + 1) _ (hc.free_behind h hk))
  intro inner s₁ h₁
  apply hc.expecting Kind.noConfusion h₁
  intro _ h₂
  exact hc.spent_of_free_succ h₂

include he hs in
theorem conditional (h : free n s) :
    Pays free spent n s (Parse.conditional expression statement) := by
  simp only [Pays, Parse.conditional, ends_bind, ends_current]
  -- The keyword is kept back for whichever demand of the rule is not met; the rule ends there.
  apply hc.expecting Kind.noConfusion (hc.keep h)
  intro hopen h₁
  have hfree := hc.free_behind h₁ (by simp [hopen])
  simp only [Pays, ends_bind, ends_advance]
  apply hc.after (he .lowest (n + 1) _ (hc.free_of_succ hfree))
  intro condition s₂ h₂
  apply hc.expecting Kind.noConfusion h₂
  intro _ h₃
  apply hc.expecting Kind.noConfusion (hc.spent_of_free h₃)
  intro _ h₄
  simp only [Pays, ends_bind, ends_peek, ends_ite, ends_advance, ends_spanFrom, ends_pure]
  apply hc.after (hc.block hs (hc.spent_of_free h₄))
  intro consequence s₅ h₅
  split
  case isTrue helse =>
    apply hc.expecting Kind.noConfusion (hc.spent_of_free (hc.free_next h₅ (by simp [helse])))
    intro _ h₆
    simp only [Pays, ends_bind, ends_spanFrom, ends_pure]
    exact hc.block hs (hc.spent_of_free_succ h₆)
  case isFalse => exact hc.spent_of_succ h₅

include hs in
theorem functionLiteral (h : free n s) :
    Pays free spent n s (Parse.functionLiteral statement) := by
  simp only [Pays, Parse.functionLiteral, ends_bind, ends_current]
  apply hc.expecting Kind.noConfusion (hc.keep h)
  intro _ h₁
  simp only [Pays, ends_bind]
  apply hc.after (hc.parameters h₁)
  intro names s₂ h₂
  cases names with
  | none => exact hc.spent_of_succ h₂
  | some names =>
      apply hc.expecting Kind.noConfusion h₂
      intro _ h₃
      simp only [Pays, ends_bind, ends_spanFrom, ends_pure]
      exact hc.block hs (hc.spent_of_free_succ h₃)

include he in
theorem arrayLiteral (h : free n s) (hk : s.token.kind ≠ .endOfInput) :
    Pays free spent n s (Parse.arrayLiteral expression) := by
  simp only [Pays, Parse.arrayLiteral, ends_bind, ends_current, ends_spanFrom, ends_pure]
  exact hc.expressionList he Kind.noConfusion h hk

include he hs in
theorem operandRule {rule : Parse (Option Node)}
    (hr : operandRule? expression statement s.token.kind = some rule) (h : free n s) :
    Pays free spent n s rule := by
  have hk : s.token.kind ≠ .endOfInput := by
    intro hend
    rw [hend] at hr
    cases hr
  cases hkind : s.token.kind <;> rw [hkind] at hr <;> cases hr
  case identifier => exact hc.spent_of_free h
  case integer => exact hc.integer h
  case trueWord => exact hc.spent_of_free h
  case falseWord => exact hc.spent_of_free h
  case bang => exact hc.unary he h hk
  case minus => exact hc.unary he h hk
  case leftParen => exact hc.grouped he h hk
  case ifWord => exact hc.conditional he hs h
  case funcWord => exact hc.functionLiteral hs h
  case leftBracket => exact hc.arrayLiteral he h hk

/-! ### Going on from an operand -/

include he in
theorem extend (left : Option Node) (h : free n s) (hk : s.token.kind ≠ .endOfInput) :
    Pays free spent n s (Parse.extend expression left) := by
  have hfree := hc.free_behind h hk
  simp only [Pays, Parse.extend, ends_bind, ends_current]
  split
  · simp only [Parse.call, ends_bind, ends_current, ends_pure]
    exact hc.expressionList he Kind.noConfusion h hk
  · simp only [Parse.index, ends_bind, ends_advance]
    apply hc.after (he .lowest (n + 1) _ hfree)
    intro position s₁ h₁
    apply hc.expecting Kind.noConfusion h₁
    intro _ h₂
    exact hc.spent_of_free_succ h₂
  · simp only [Parse.binary, ends_bind, ends_current, ends_advance, ends_pure]
    exact he _ n _ (hc.free_of_succ hfree)

include he in
theorem extendWhile (precedence : Precedence) (rounds : Nat) (left : Option Node) (h : spent n s) :
    Pays free spent n s (Parse.extendWhile expression precedence rounds left) := by
  induction rounds generalizing s left with
  | zero => exact h
  | succ rounds ih =>
      simp only [Pays, Parse.extendWhile, ends_bind, ends_peek, ends_ite, ends_advance, ends_pure]
      split
      case isTrue hrank =>
        have hk : s.next.token.kind ≠ .endOfInput := by
          intro hend
          rw [hend] at hrank
          exact absurd hrank (Nat.not_lt.mpr precedence.rank_pos)
        apply (hc.extend he left (hc.free_next h hk) hk).imp
        intro extended s₁ h₁
        exact ih extended h₁
      case isFalse => exact h

include he hs in
theorem expressionBy (precedence : Precedence) (h : free n s) :
    Pays free spent n s (Parse.expressionBy expression statement precedence) := by
  simp only [Pays, Parse.expressionBy, ends_bind, ends_current]
  cases hr : operandRule? expression statement s.token.kind with
  | none =>
      simp only [ends_bind, ends_complain, ends_pure]
      exact hc.current h _
  | some rule =>
      simp only [ends_bind, ends_remaining]
      apply (hc.operandRule he hs hr h).imp
      intro operand s₁ h₁
      exact hc.extendWhile he precedence _ operand h₁

/-! ### Statements -/

include he in
theorem statementBy (h : free n s) : Pays free spent n s (Parse.statementBy expression) := by
  simp only [Pays, Parse.statementBy, ends_bind, ends_current]
  split
  case h_1 =>
    simp only [Parse.letStatement, ends_bind, ends_current]
    apply hc.expecting Kind.noConfusion (hc.keep h)
    intro _ h₁
    simp only [Pays, ends_bind, ends_currentName]
    apply hc.expecting Kind.noConfusion (hc.spent_of_free h₁)
    intro hassign h₂
    have hfree := hc.free_behind h₂ (by simp [hassign])
    simp only [Pays, ends_bind, ends_advance, ends_spanFrom, ends_pure]
    apply (he .lowest n _ (hc.free_of_succ (hc.free_of_succ hfree))).imp
    intro value s₃ h₃
    exact hc.skipSemicolon h₃
  case h_2 hk =>
    have hfree := hc.free_behind h (by simp [hk])
    simp only [Parse.returnStatement, ends_bind, ends_current, ends_advance, ends_spanFrom,
      ends_pure]
    apply (he .lowest n _ (hc.free_of_succ hfree)).imp
    intro value s₁ h₁
    exact hc.skipSemicolon h₁
  case h_3 =>
    simp only [Parse.expressionStatement, ends_bind, ends_current, ends_spanFrom, ends_pure]
    apply (he .lowest n _ h).imp
    intro value s₁ h₁
    exact hc.skipSemicolon h₁

end Rules

/-! ### Nesting -/

theorem readers (depth : Nat) :
    (∀ p n s, free n s → Pays free spent n s (Parse.expression depth p)) ∧
      ∀ n s, free n s → Pays free spent n s (Parse.statement depth) := by
  induction depth with
  | zero => exact ⟨fun _ _ _ => id, fun _ _ => id⟩
  | succ depth ih =>
      constructor
      · intro p n s h
        rw [Parse.expression]
        exact hc.expressionBy ih.1 ih.2 p h
      · intro n s h
        rw [Parse.statement]
        exact hc.statementBy ih.1 h

/-- Where a statement is given up for its nesting, the diagnostic about that is charged to the token at
which the limit was reached. -/
theorem programStatements (depth rounds : Nat) (h : Ready free spent n s) :
    Ends (Parse.programStatements (Parse.statement depth) rounds) s (fun _ => spent n) anyFault := by
  induction rounds generalizing s with
  | zero => exact hc.spent_of_ready h
  | succ rounds ih =>
      by_cases hk : s.token.kind = .endOfInput
      · simpa [Parse.programStatements, hk] using hc.spent_of_ready h
      · have hfree : free n s := h.resolve_right fun hend => hk hend.1
        rw [ends_programStatements_succ (Parse.statement depth) rounds hk]
        apply ((hc.readers depth).2 n s hfree).mono
        · intro next s₁ h₁
          exact ih (hc.ready_next h₁)
        · intro fault s₁ h₁
          split
          · exact hc.current h₁ _
          · trivial

end Charging

end Parse

/-- Where the first token of a stream is free, the diagnostics of a parse are those of a state in which
the current token has been spent. -/
theorem TokenStream.exists_spent {free spent : Nat → ParseState → Prop}
    (hc : Parse.Charging free spent) {depth : Nat} {stream : TokenStream} {parsed : Parsed}
    (h : stream.parseWithin depth = .ok parsed) (hs : free 0 { stream }) :
    ∃ s, parsed.diagnostics = s.diagnostics ∧ spent 0 s := by
  obtain ⟨-, -, s, -, hd, hspent⟩ :=
    parseWithin_ends (hc.programStatements depth _ (Or.inl hs)) h
  exact ⟨s, hd, hspent⟩

end ExprLang
