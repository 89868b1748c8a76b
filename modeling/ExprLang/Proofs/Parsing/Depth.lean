import ExprLang.Proofs.Parsing.Program

/-!
# Levels that are enough

Every level of nested expressions uses up a token, and so does every level of nested statements. So
a parse whose number of levels is more than twice the number of its tokens does not reach the
nesting limit.

## Implementation notes

The rules are followed for readers that do not reach the limit where fewer than `n` tokens are left.
What a rule needs is that fewer than `n` tokens are left behind the current one.
-/

namespace ExprLang

namespace ParseState

/-- The number of tokens from the current one on. -/
def left (s : ParseState) : Nat :=
  s.stream.pending.length

@[simp] theorem next_left (s : ParseState) : s.next.left = s.left - 1 := by
  simp [left]

theorem left_pos {s : ParseState} (h : s.token.kind ≠ .endOfInput) : 0 < s.left :=
  List.length_pos_of_mem (Parse.token_mem_pending h)

/-- Nothing was given up for its nesting. -/
def Within (s : ParseState) : Prop :=
  ∀ d ∈ s.diagnostics, d.complaint ≠ .nestedTooDeep

theorem Within.noting {s : ParseState} (h : s.Within) {complaint : Complaint} (span : Span)
    (hc : complaint ≠ .nestedTooDeep) : (s.noting complaint span).Within := by
  intro d hd
  rcases List.mem_append.mp hd with hd | hd
  · exact h d hd
  · rw [List.mem_singleton.mp hd]
    exact hc

end ParseState

namespace Parse

section ShallowAt

variable {α β : Type} {s : ParseState}

/-- From a state, a step does not reach the nesting limit. -/
def ShallowAt (s : ParseState) (step : Parse α) : Prop :=
  Ends step s (fun _ s' => s'.left ≤ s.left ∧ (s.Within → s'.Within))
    (fun fault _ => fault ≠ .tooDeep)

theorem ShallowAt.pure {a : α} : ShallowAt s (pure a) :=
  ⟨Nat.le_refl _, id⟩

theorem ShallowAt.bind {step : Parse α} {f : α → Parse β} (h : ShallowAt s step)
    (hf : ∀ a s', s'.left ≤ s.left → ShallowAt s' (f a)) : ShallowAt s (step >>= f) := by
  refine (ends_bind step f).mpr (Ends.imp h ?_)
  rintro a s₁ ⟨hl, hw⟩
  apply Ends.imp (hf a s₁ hl)
  rintro b s₂ ⟨hl', hw'⟩
  exact ⟨Nat.le_trans hl' hl, fun h => hw' (hw h)⟩

theorem ShallowAt.ite {p : Prop} [Decidable p] {step step' : Parse α}
    (h : p → ShallowAt s step) (h' : ¬ p → ShallowAt s step') :
    ShallowAt s (if p then step else step') := by
  by_cases hp : p
  · rw [if_pos hp]; exact h hp
  · rw [if_neg hp]; exact h' hp

theorem ShallowAt.current {f : Token → Parse α} (h : ShallowAt s (f s.token)) :
    ShallowAt s (current >>= f) := h

theorem ShallowAt.peek {f : Token → Parse α} (h : ShallowAt s (f s.next.token)) :
    ShallowAt s (peek >>= f) := h

theorem ShallowAt.remaining {f : Nat → Parse α} (h : ShallowAt s (f s.left)) :
    ShallowAt s (remaining >>= f) := h

theorem ShallowAt.spanFrom {start : Token} {f : Span → Parse α}
    (h : ∀ span, ShallowAt s (f span)) : ShallowAt s (spanFrom start >>= f) := h _

theorem ShallowAt.currentName {f : Name → Parse α} (h : ∀ name, ShallowAt s (f name)) :
    ShallowAt s (currentName >>= f) := h _

theorem ShallowAt.next {step : Parse α} (h : ShallowAt s.next step) :
    Ends step s.next (fun _ s' => s'.left ≤ s.left ∧ (s.Within → s'.Within))
      (fun fault _ => fault ≠ .tooDeep) := by
  apply Ends.imp h
  rintro a s' ⟨hl, hw⟩
  rw [ParseState.next_left] at hl
  exact ⟨by omega, hw⟩

theorem ShallowAt.advance {f : Unit → Parse α} (h : ShallowAt s.next (f ())) :
    ShallowAt s (advance >>= f) :=
  h.next

theorem ShallowAt.expecting {kind : Kind} {step : Parse (Option α)} (h : ShallowAt s.next step) :
    ShallowAt s (expecting kind step) := by
  apply (ends_expecting kind step).mpr
  split
  · exact h.next
  · exact ⟨Nat.le_refl _, fun hw => hw.noting _ (by simp)⟩

theorem ShallowAt.skipSemicolon {f : Unit → Parse α} (h : ∀ s, ShallowAt s (f ())) :
    ShallowAt s (skipSemicolon >>= f) := by
  refine (ends_bind _ _).mpr (ends_skipSemicolon.mpr ?_)
  split
  · exact (h s.next).next
  · exact h s

end ShallowAt

section Rules

variable {expression : Precedence → Parse (Option Node)} {statement : Parse (Option Node)} {n : Nat}
variable (he : ∀ p s, s.left < n → ShallowAt s (expression p))
variable (hst : ∀ s, s.left < n → ShallowAt s statement)
variable {s : ParseState}

/-! ### Lists and blocks -/

include he in
theorem shallowAt_moreExpressions {rounds : Nat} (hs : s.left - 1 < n) :
    ShallowAt s (moreExpressions expression rounds) := by
  induction rounds generalizing s with
  | zero => exact ShallowAt.pure
  | succ rounds ih =>
      refine ShallowAt.peek (ShallowAt.ite (fun _ => ?_) fun _ => ShallowAt.pure)
      refine ShallowAt.advance (ShallowAt.advance ?_)
      refine (he .lowest _ (by simp; omega)).bind fun next s₁ h₁ => ?_
      simp only [ParseState.next_left] at h₁
      exact (ih (by omega)).bind fun rest s₂ _ => ShallowAt.pure

include he in
theorem shallowAt_expressionList (closing : Kind) (hs : s.left - 1 < n) :
    ShallowAt s (expressionList expression closing) := by
  refine ShallowAt.peek (ShallowAt.ite (fun _ => ?_) fun _ => ShallowAt.advance ?_)
  · exact ShallowAt.advance ShallowAt.pure
  · refine (he .lowest _ (by simpa using hs)).bind fun first s₁ h₁ => ShallowAt.remaining ?_
    simp only [ParseState.next_left] at h₁
    refine (shallowAt_moreExpressions he (by omega)).bind fun rest s₂ _ => ?_
    exact ShallowAt.expecting ShallowAt.pure

theorem shallowAt_moreParameters {rounds : Nat} : ShallowAt s (moreParameters rounds) := by
  induction rounds generalizing s with
  | zero => exact ShallowAt.pure
  | succ rounds ih =>
      refine ShallowAt.peek (ShallowAt.ite (fun _ => ?_) fun _ => ShallowAt.pure)
      refine ShallowAt.advance (ShallowAt.expecting (ShallowAt.currentName fun name => ?_))
      exact ih.bind fun rest s₁ _ => ShallowAt.pure

theorem shallowAt_parameters : ShallowAt s parameters := by
  refine ShallowAt.peek (ShallowAt.ite (fun _ => ?_) fun _ => ?_)
  · exact ShallowAt.advance ShallowAt.pure
  · refine ShallowAt.expecting (ShallowAt.currentName fun first => ShallowAt.remaining ?_)
    refine shallowAt_moreParameters.bind fun rest s₁ _ => ?_
    cases rest with
    | none => exact ShallowAt.pure
    | some rest => exact ShallowAt.expecting ShallowAt.pure

include hst in
theorem shallowAt_blockStatements {rounds : Nat} (hs : s.left < n) :
    ShallowAt s (blockStatements statement rounds) := by
  induction rounds generalizing s with
  | zero => exact ShallowAt.pure
  | succ rounds ih =>
      refine ShallowAt.current (ShallowAt.ite (fun _ => ShallowAt.pure) fun _ => ?_)
      refine (hst s hs).bind fun next s₁ h₁ => ShallowAt.advance ?_
      exact (ih (by simp; omega)).bind fun rest s₂ _ => ShallowAt.pure

include hst in
theorem shallowAt_block (hs : s.left - 1 < n) : ShallowAt s (block statement) := by
  refine ShallowAt.current (ShallowAt.advance (ShallowAt.remaining ?_))
  refine (shallowAt_blockStatements hst (by simpa using hs)).bind fun statements s₁ _ => ?_
  exact ShallowAt.spanFrom fun span => ShallowAt.pure

/-! ### Operands -/

theorem shallowAt_integer : ShallowAt s integer := by
  simp only [ShallowAt, integer, ends_bind, ends_current]
  cases Text.readInt s.token.text with
  | error reason => simp
  | ok value =>
      simp only [ends_ite, ends_bind, ends_complain, ends_pure]
      split
      · exact ⟨Nat.le_refl _, fun hw => hw.noting _ (by simp)⟩
      · exact ⟨Nat.le_refl _, id⟩

include he in
theorem shallowAt_unary (hs : s.left - 1 < n) : ShallowAt s (unary expression) := by
  refine ShallowAt.current (ShallowAt.advance ?_)
  refine (he .unary _ (by simpa using hs)).bind fun operand s₁ _ => ?_
  exact ShallowAt.spanFrom fun span => ShallowAt.pure

include he in
theorem shallowAt_grouped (hs : s.left - 1 < n) : ShallowAt s (grouped expression) := by
  refine ShallowAt.advance ((he .lowest _ (by simpa using hs)).bind fun inner s₁ _ => ?_)
  exact ShallowAt.expecting ShallowAt.pure

include he hst in
theorem shallowAt_conditional (hs : s.left - 1 < n) :
    ShallowAt s (conditional expression statement) := by
  refine ShallowAt.current (ShallowAt.expecting (ShallowAt.advance ?_))
  refine (he .lowest _ (by simp; omega)).bind fun condition s₁ h₁ => ?_
  simp only [ParseState.next_left] at h₁
  refine ShallowAt.expecting (ShallowAt.expecting ?_)
  refine (shallowAt_block hst (by simp; omega)).bind fun consequence s₂ h₂ => ?_
  simp only [ParseState.next_left] at h₂
  refine ShallowAt.peek (ShallowAt.ite (fun _ => ?_) fun _ => ?_)
  · refine ShallowAt.advance (ShallowAt.expecting ?_)
    refine (shallowAt_block hst (by simp; omega)).bind fun alternative s₃ _ => ?_
    exact ShallowAt.spanFrom fun span => ShallowAt.pure
  · exact ShallowAt.spanFrom fun span => ShallowAt.pure

include hst in
theorem shallowAt_functionLiteral (hs : s.left - 1 < n) :
    ShallowAt s (functionLiteral statement) := by
  refine ShallowAt.current (ShallowAt.expecting ?_)
  refine shallowAt_parameters.bind fun names s₁ h₁ => ?_
  simp only [ParseState.next_left] at h₁
  cases names with
  | none => exact ShallowAt.pure
  | some names =>
      apply ShallowAt.expecting
      refine (shallowAt_block hst (by simp; omega)).bind fun body s₂ _ => ?_
      exact ShallowAt.spanFrom fun span => ShallowAt.pure

include he in
theorem shallowAt_arrayLiteral (hs : s.left - 1 < n) : ShallowAt s (arrayLiteral expression) := by
  refine ShallowAt.current ((shallowAt_expressionList he _ hs).bind fun elements s₁ _ => ?_)
  exact ShallowAt.spanFrom fun span => ShallowAt.pure

include he hst in
theorem shallowAt_operandRule {rule : Parse (Option Node)} (hs : s.left - 1 < n) {k : Kind}
    (h : operandRule? expression statement k = some rule) : ShallowAt s rule := by
  cases k <;> cases h
  case identifier => exact ShallowAt.current ShallowAt.pure
  case integer => exact shallowAt_integer
  case trueWord => exact ShallowAt.current ShallowAt.pure
  case falseWord => exact ShallowAt.current ShallowAt.pure
  case bang => exact shallowAt_unary he hs
  case minus => exact shallowAt_unary he hs
  case leftParen => exact shallowAt_grouped he hs
  case ifWord => exact shallowAt_conditional he hst hs
  case funcWord => exact shallowAt_functionLiteral hst hs
  case leftBracket => exact shallowAt_arrayLiteral he hs

/-! ### Going on from an operand -/

include he in
theorem shallowAt_extend (left : Option Node) (hs : s.left - 1 < n) :
    ShallowAt s (extend expression left) := by
  apply ShallowAt.current
  split
  · refine (shallowAt_expressionList he _ hs).bind fun arguments s₁ _ => ?_
    exact ShallowAt.current ShallowAt.pure
  · refine ShallowAt.advance ((he .lowest _ (by simpa using hs)).bind fun position s₁ _ => ?_)
    exact ShallowAt.expecting (ShallowAt.current ShallowAt.pure)
  · refine ShallowAt.current (ShallowAt.advance ?_)
    exact (he _ _ (by simpa using hs)).bind fun right s₁ _ => ShallowAt.pure

include he in
theorem shallowAt_extendWhile (p : Precedence) {rounds : Nat} (left : Option Node)
    (hs : s.left - 1 < n) : ShallowAt s (extendWhile expression p rounds left) := by
  induction rounds generalizing s left with
  | zero => exact ShallowAt.pure
  | succ rounds ih =>
      refine ShallowAt.peek (ShallowAt.ite (fun _ => ShallowAt.advance ?_) fun _ => ShallowAt.pure)
      refine (shallowAt_extend he left (by simp; omega)).bind fun extended s₁ h₁ => ?_
      simp only [ParseState.next_left] at h₁
      exact ih extended (by omega)

include he hst in
theorem shallowAt_expressionBy (p : Precedence) (hs : s.left - 1 < n) :
    ShallowAt s (expressionBy expression statement p) := by
  apply ShallowAt.current
  split
  · exact ⟨Nat.le_refl _, fun hw => hw.noting _ (by simp)⟩
  · next rule hrule =>
      refine (shallowAt_operandRule he hst hs hrule).bind fun operand s₁ h₁ => ?_
      exact ShallowAt.remaining (shallowAt_extendWhile he p operand (by omega))

/-! ### Statements -/

include he in
theorem shallowAt_statementBy (hs : s.left < n) : ShallowAt s (statementBy expression) := by
  apply ShallowAt.current
  split
  · refine ShallowAt.current (ShallowAt.expecting (ShallowAt.currentName fun name => ?_))
    refine ShallowAt.expecting (ShallowAt.advance ?_)
    refine (he .lowest _ (by simp; omega)).bind fun value s₁ _ => ?_
    exact ShallowAt.skipSemicolon fun s₂ => ShallowAt.spanFrom fun span => ShallowAt.pure
  · refine ShallowAt.current (ShallowAt.advance ?_)
    refine (he .lowest _ (by simp; omega)).bind fun value s₁ _ => ?_
    exact ShallowAt.skipSemicolon fun s₂ => ShallowAt.spanFrom fun span => ShallowAt.pure
  · apply ShallowAt.current
    refine (he .lowest _ hs).bind fun value s₁ _ => ShallowAt.skipSemicolon fun s₂ => ?_
    exact ShallowAt.spanFrom fun span => ShallowAt.pure

end Rules

/-! ### Nesting -/

/-- Two levels for every token that is left are enough. -/
theorem shallowAt_readers (depth : Nat) :
    (∀ p s, 2 * s.left < depth → ShallowAt s (expression depth p)) ∧
      ∀ s, 2 * s.left + 1 < depth → ShallowAt s (statement depth) := by
  induction depth with
  | zero => exact ⟨fun _ _ h => absurd h (by omega), fun _ h => absurd h (by omega)⟩
  | succ depth ih =>
      refine ⟨fun p s hs => ?_, fun s hs => ?_⟩
      · rw [expression]
        -- A nested expression or statement stands behind a token, and that token pays for both
        -- levels. Only at the end of the input there is none, but nothing is nested there either.
        by_cases hk : s.token.kind = .endOfInput
        · apply ShallowAt.current
          rw [hk]
          exact ⟨Nat.le_refl _, fun hw => hw.noting _ (by simp)⟩
        · have hpos := ParseState.left_pos hk
          exact shallowAt_expressionBy (n := s.left) (fun p s' h => ih.1 p s' (by omega))
            (fun s' h => ih.2 s' (by omega)) p (by omega)
      · rw [statement]
        exact shallowAt_statementBy (n := s.left + 1) (fun p s' h => ih.1 p s' (by omega))
          (by omega)

theorem programStatements_within {depth rounds : Nat} {s : ParseState}
    (hd : 2 * s.left + 1 < depth) (hw : s.Within) :
    Ends (programStatements (statement depth) rounds) s (fun _ s' => s'.Within) anyFault := by
  induction rounds generalizing s with
  | zero => exact hw
  | succ rounds ih =>
      by_cases hk : s.token.kind = .endOfInput
      · simpa [programStatements, hk] using hw
      · rw [ends_programStatements_succ _ rounds hk]
        refine Ends.mono ((shallowAt_readers depth).2 s hd) ?_ ?_
        · rintro next s₁ ⟨hl, hw₁⟩
          exact ih (by rw [ParseState.next_left]; omega) (hw₁ hw)
        · intro fault s₁ hf
          rw [if_neg hf]
          exact True.intro

end Parse

/-- A parse with two levels for every token, and two more, does not reach the nesting limit. -/
theorem TokenStream.withinLimit_of_lt {depth : Nat} {stream : TokenStream} {parsed : Parsed}
    (h : stream.parseWithin depth = .ok parsed) (hd : 2 * stream.pending.length + 1 < depth) :
    parsed.WithinLimit := by
  have hw : ParseState.Within { stream } := fun d hd => absurd hd List.not_mem_nil
  obtain ⟨statements, span, s, -, hds, hs⟩ :=
    parseWithin_ends (Parse.programStatements_within hd hw) h
  rw [Parsed.WithinLimit, hds]
  exact hs

end ExprLang
