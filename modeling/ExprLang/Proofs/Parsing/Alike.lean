import ExprLang.Proofs.Parsing.Loop
import ExprLang.Proofs.Syntax.Moving

/-!
# Two parses side by side

Two parses whose states are aligned do the same: they end with the same result at the new places or
with the same fault, and in states that are aligned again. So a parse depends on nothing but what an
alignment says of states: the token at hand and, where a rule looks ahead, the one behind it.

## Implementation notes

The two parses may have different numbers of tokens left, so their loops may count down from
different numbers. They are compared as loops without a count.

Tokens of two parses need not have the same text where the input ends. The rules that use the text of
a token are never called there, and they are compared only for the other kinds of the current token.
-/

namespace ExprLang

namespace Moving

variable (μ : Moving)

/-- The state of a parse with all tokens at their new places. -/
def state (s : ParseState) : ParseState where
  stream := ⟨s.stream.pending.map μ.token, μ.span s.stream.endPlace⟩
  diagnostics := s.diagnostics.map μ.diagnostic

@[simp] theorem state_token (s : ParseState) : (μ.state s).token = μ.token s.token := by
  obtain ⟨⟨pending, endPlace⟩, diagnostics⟩ := s
  cases pending <;> rfl

@[simp] theorem state_next (s : ParseState) : (μ.state s).next = μ.state s.next := by
  simp [state, ParseState.next, TokenStream.tail]

@[simp] theorem state_noting (s : ParseState) (c : Complaint) (span : Span) :
    (μ.state s).noting (μ.complaint c) (μ.span span) = μ.state (s.noting c span) := by
  simp [state, ParseState.noting, diagnostic]

end Moving

/-- Two complaints of one form, about tokens that are related. A text that is shown is the same. -/
inductive Complaint.Relates (like : Token → Token → Prop) : Complaint → Complaint → Prop where
  | unexpectedToken (expected : Kind) {t t' : Token} (h : like t t') :
      Relates like (.unexpectedToken expected t) (.unexpectedToken expected t')
  | noOperand {t t' : Token} (h : like t t') : Relates like (.noOperand t) (.noOperand t')
  | integerTooLarge {t t' : Token} (h : like t t') (htext : t'.text = t.text) :
      Relates like (.integerTooLarge t) (.integerTooLarge t')
  | nestedTooDeep : Relates like .nestedTooDeep .nestedTooDeep

/-- Complaints about moved tokens are moved themselves. -/
theorem Moving.complaint_of_relates {μ : Moving} {c c' : Complaint}
    (h : Complaint.Relates (fun t t' => t' = μ.token t) c c') : c' = μ.complaint c := by
  cases h with
  | unexpectedToken expected h => rw [h, complaint]
  | noOperand h => rw [h, complaint]
  | integerTooLarge h _ => rw [h, complaint]
  | nestedTooDeep => rw [complaint]

namespace Parse

variable {α β : Type}

/-- The state at the end of a step. -/
def final : EStateM.Result Fault ParseState α → ParseState
  | .ok _ s => s
  | .error _ s => s

/-- A correspondence between the states of two parses. The tokens of the second one are those of the
first one at their new places, with any text where the input ends. -/
structure Alignment (μ : Moving) where
  /-- The tokens that correspond. -/
  Like : Token → Token → Prop
  /-- The states that correspond. -/
  Aligned : ParseState → ParseState → Prop
  /-- The states of the first parse up to which the two are compared. From them, the next token is
  one that both have. -/
  Ahead : ParseState → Prop
  /-- Whether the second parse may go on where the first one reaches the nesting limit. -/
  Deeper : Prop
  like_token : ∀ t, Like t (μ.token t)
  kind : ∀ {t t'}, Like t t' → t'.kind = t.kind
  span : ∀ {t t'}, Like t t' → t'.span = μ.span t.span
  eq_token : ∀ {t t'}, Like t t' → t.kind ≠ .endOfInput → t' = μ.token t
  token : ∀ {s s'}, Aligned s s' → Like s.token s'.token
  next : ∀ {s s'}, Aligned s s' → Ahead s → Aligned s.next s'.next
  noting : ∀ {s s' c c'} span, Complaint.Relates Like c c' → Aligned s s' →
    Aligned (s.noting c span) (s'.noting c' (μ.span span))
  ahead_of_follows : ∀ {s t}, Follows s t → Ahead t → Ahead s
  not_ahead : Deeper → ∀ (s : ParseState) span, ¬ Ahead (s.noting .nestedTooDeep span)

variable {μ : Moving} {A : Alignment μ}

/-- Two ends of steps correspond, if the first parse has not gone too far: by their results, or by
the same fault, and by their states. -/
def Agrees (A : Alignment μ) (moved : α → α) (r r' : EStateM.Result Fault ParseState α) : Prop :=
  A.Ahead (final r) →
    match r with
    | .ok a s => ∃ s', r' = .ok (moved a) s' ∧ A.Aligned s s'
    | .error fault s =>
        A.Deeper ∧ fault = .tooDeep ∨ ∃ s', r' = .error fault s' ∧ A.Aligned s s'

/-- From states that are aligned and whose current token is of one of the given kinds two steps end
alike. -/
structure Alike (A : Alignment μ) (on : Kind → Prop) (moved : α → α) (step step' : Parse α) :
    Prop where
  forward : ∀ s, Follows s (final (step s))
  agrees : ∀ s s', A.Aligned s s' → on s.token.kind → Agrees A moved (step s) (step' s')

/-- Any kind of token. -/
abbrev anyKind : Kind → Prop := fun _ => True

variable {on : Kind → Prop}

section Alike

variable {moved : α → α} {moved' : β → β} {step step' : Parse α}

theorem alike_pure {a a' : α} (h : a' = moved a) : Alike A on moved (pure a) (pure a') where
  forward := Follows.refl
  agrees _ s' hs _ _ := ⟨s', h ▸ rfl, hs⟩

theorem Alike.bind {f f' : α → Parse β} (h : Alike A on moved step step')
    (hf : ∀ a, Alike A anyKind moved' (f a) (f' (moved a))) :
    Alike A on moved' (step >>= f) (step' >>= f') where
  forward s := by
    have hs := h.forward s
    simp only [Bind.bind, EStateM.bind]
    cases hr : step s with
    | ok a t => rw [hr] at hs; exact hs.trans ((hf a).forward t)
    | error fault t => rw [hr] at hs; exact hs
  agrees s s' hs hk := by
    have hstep := h.agrees s s' hs hk
    simp only [Bind.bind, EStateM.bind]
    cases hr : step s with
    | ok a t =>
        intro hl
        rw [hr] at hstep
        obtain ⟨t', ht', hat⟩ := hstep (A.ahead_of_follows ((hf a).forward t) hl)
        rw [ht']
        exact (hf a).agrees t t' hat True.intro hl
    | error fault t =>
        intro hl
        rw [hr] at hstep
        obtain he | ⟨t', ht', hat⟩ := hstep hl
        · exact Or.inl he
        · rw [ht']
          exact Or.inr ⟨t', rfl, hat⟩

theorem Alike.ite {p p' : Prop} [Decidable p] [Decidable p'] (hp : p' ↔ p)
    {step₁ step₁' step₂ step₂' : Parse α} (h₁ : Alike A on moved step₁ step₁')
    (h₂ : Alike A on moved step₂ step₂') :
    Alike A on moved (if p then step₁ else step₂) (if p' then step₁' else step₂') := by
  by_cases h : p
  · rw [if_pos h, if_pos (hp.mpr h)]; exact h₁
  · rw [if_neg h, if_neg (mt hp.mp h)]; exact h₂

theorem alike_throw (fault : Fault) : Alike A on moved (throw fault) (throw fault) where
  forward := Follows.refl
  agrees _ s' hs _ _ := Or.inr ⟨s', rfl, hs⟩

/-- What comes behind looking at the current token. -/
theorem alike_current {f f' : Token → Parse α}
    (h : ∀ t t', A.Like t t' → Alike A (· = t.kind) moved (f t) (f' t')) :
    Alike A on moved (current >>= f) (current >>= f') where
  forward s := (h s.token (μ.token s.token) (A.like_token _)).forward s
  agrees s s' hs _ := (h s.token s'.token (A.token hs)).agrees s s' hs rfl

/-- What comes behind looking at the current token where the input does not end. -/
theorem alike_currentToken (hon : ¬ on .endOfInput) {f f' : Token → Parse α}
    (h : ∀ t, Alike A on moved (f t) (f' (μ.token t))) :
    Alike A on moved (current >>= f) (current >>= f') where
  forward s := (h s.token).forward s
  agrees s s' hs hk := by
    have htoken : s'.token = μ.token s.token :=
      A.eq_token (A.token hs) fun he => hon (he ▸ hk)
    have hagrees := (h s.token).agrees s s' hs hk
    rw [← htoken] at hagrees
    exact hagrees

/-- What comes behind looking at the token behind the current one. -/
theorem alike_peek {f f' : Token → Parse α}
    (h : ∀ t t', A.Like t t' → Alike A on moved (f t) (f' t')) :
    Alike A on moved (peek >>= f) (peek >>= f') where
  forward s := (h s.next.token (μ.token s.next.token) (A.like_token _)).forward s
  agrees s s' hs hk hl := by
    have hf := h s.next.token (μ.token s.next.token) (A.like_token _)
    have hn := A.next hs (A.ahead_of_follows (hf.forward s) hl)
    exact (h s.next.token s'.next.token (A.token hn)).agrees s s' hs hk hl

/-- Where a step goes on to the next token because of its kind, that is the kind of the current token
from there on. -/
theorem alike_peekAdvance (p : Kind → Prop) [DecidablePred p] {g g' : Token → Parse α}
    (hf : Alike A p moved step step')
    (hg : ∀ t t', A.Like t t' → Alike A on moved (g t) (g' t')) :
    Alike A on moved (peek >>= fun t => if p t.kind then advance >>= fun _ => step else g t)
      (peek >>= fun t => if p t.kind then advance >>= fun _ => step' else g' t) where
  forward s := by
    have hs := (hg s.next.token (μ.token s.next.token) (A.like_token _)).forward s
    change Follows s (final ((if p s.next.token.kind then _ else _ : Parse α) s))
    by_cases h : p s.next.token.kind
    · rw [if_pos h]; exact (Follows.next s).trans (hf.forward s.next)
    · rw [if_neg h]; exact hs
  agrees s s' hs hk := by
    change Agrees A moved ((if p s.next.token.kind then _ else _ : Parse α) s)
      ((if p s'.next.token.kind then _ else _ : Parse α) s')
    by_cases h : p s.next.token.kind
    · rw [if_pos h]
      intro hl
      have hn := A.next hs
        (A.ahead_of_follows ((Follows.next s).trans (hf.forward s.next)) hl)
      rw [if_pos ((A.kind (A.token hn)).symm ▸ h)]
      exact hf.agrees s.next s'.next hn h hl
    · rw [if_neg h]
      intro hl
      have hf := hg s.next.token (μ.token s.next.token) (A.like_token _)
      have hn := A.next hs (A.ahead_of_follows (hf.forward s) hl)
      rw [if_neg ((A.kind (A.token hn)).symm ▸ h)]
      exact (hg s.next.token s'.next.token (A.token hn)).agrees s s' hs hk hl

theorem alike_advance : Alike A on id advance advance where
  forward := Follows.next
  agrees s s' hs _ hl := ⟨s'.next, rfl, A.next hs (A.ahead_of_follows (Follows.next s) hl)⟩

theorem alike_complain {c c' : Complaint} (hc : Complaint.Relates A.Like c c') {span span' : Span}
    (hspan : span' = μ.span span) : Alike A on id (complain c span) (complain c' span') where
  forward s := Follows.noting s c span
  agrees _ _ hs _ _ := ⟨_, rfl, hspan ▸ A.noting span hc hs⟩

theorem alike_spanFrom {start start' : Token} (h : A.Like start start') :
    Alike A on μ.span (spanFrom start) (spanFrom start') :=
  alike_current fun _ _ ht => alike_pure (by rw [A.span h, A.span ht, μ.span_cover])

theorem alike_currentName (hon : ¬ on .endOfInput) : Alike A on μ.name currentName currentName :=
  alike_currentToken hon fun _ => alike_pure rfl

theorem alike_skipSemicolon : Alike A on id skipSemicolon skipSemicolon :=
  alike_peek fun _ _ ht => Alike.ite (by rw [A.kind ht]) alike_advance (alike_pure rfl)

/-- What follows a check of the next token, as one step for either outcome. -/
theorem expectPeek_bind (kind : Kind) (f : Bool → Parse α) :
    expectPeek kind >>= f = peek >>= fun next =>
      if next.kind = kind then advance >>= fun _ => f true
      else complain (.unexpectedToken kind next) next.span >>= fun _ => f false := by
  rw [expectPeek, bind_assoc]
  congr
  funext next
  split
  · rw [bind_assoc]; rfl
  · rw [bind_assoc]; rfl

theorem alike_expectPeek (kind : Kind) {f f' : Bool → Parse α}
    (ht : Alike A (· = kind) moved (f true) (f' true))
    (hf : Alike A anyKind moved (f false) (f' false)) :
    Alike A on moved (expectPeek kind >>= f) (expectPeek kind >>= f') := by
  rw [expectPeek_bind, expectPeek_bind]
  refine alike_peekAdvance (· = kind) ht fun t t' hl => ?_
  exact (alike_complain (.unexpectedToken kind hl) (A.span hl)).bind fun _ => hf

theorem alike_expecting {moved : α → α} (kind : Kind) {step step' : Parse (Option α)}
    (h : Alike A (· = kind) (Option.map moved) step step') :
    Alike A on (Option.map moved) (expecting kind step) (expecting kind step') :=
  alike_expectPeek kind h (alike_pure rfl)

/-! ### Loops -/

variable {round round' : α → Parse (α ⊕ β)}

/-- A loop goes forward if its rounds do. -/
theorem Repeats.forward (h : ∀ a s, Follows s (final (round a s))) {a : α} {s : ParseState}
    {r : EStateM.Result Fault ParseState β} (hr : Repeats round a s r) : Follows s (final r) := by
  induction hr with
  | @leave a s s' b hround =>
      have hf := h a s
      rw [hround] at hf
      exact hf
  | @fault a s s' fault hround =>
      have hf := h a s
      rw [hround] at hf
      exact hf
  | @again a a' s s' r hround hr ih =>
      have hf := h a s
      rw [hround] at hf
      exact hf.trans ih

/-- Loops whose rounds are alike end alike. -/
theorem Repeats.agrees
    (h : ∀ a, Alike A anyKind (Sum.map moved moved') (round a) (round' (moved a)))
    {a : α} {s s' : ParseState} {r r' : EStateM.Result Fault ParseState β}
    (hr : Repeats round a s r) (hr' : Repeats round' (moved a) s' r') (hs : A.Aligned s s') :
    Agrees A moved' r r' := by
  induction hr generalizing s' with
  | @leave a s t b hround =>
      intro hl
      have hagree := (h a).agrees s s' hs True.intro
      rw [hround] at hagree
      obtain ⟨t', ht', hat⟩ := hagree hl
      exact ⟨t', hr'.eq_ok ht', hat⟩
  | @fault a s t fault hround =>
      intro hl
      have hagree := (h a).agrees s s' hs True.intro
      rw [hround] at hagree
      obtain he | ⟨t', ht', hat⟩ := hagree hl
      · exact Or.inl he
      · exact Or.inr ⟨t', hr'.eq_error ht', hat⟩
  | @again a a' s t r hround hrest ih =>
      intro hl
      have hagree := (h a).agrees s s' hs True.intro
      rw [hround] at hagree
      have hf := hrest.forward fun a s => (h a).forward s
      obtain ⟨t', ht', hat⟩ := hagree (A.ahead_of_follows hf hl)
      exact ih (hr'.rest ht') hat hl

/-- Loops that have enough rounds and whose rounds are alike. -/
theorem alike_loop
    (h : ∀ a, Alike A anyKind (Sum.map moved moved') (round a) (round' (moved a))) {a : α}
    {loop loop' : Nat → Parse β} (hloop : ∀ s n, s.left ≤ n → Repeats round a s (loop n s))
    (hloop' : ∀ s n, s.left ≤ n → Repeats round' (moved a) s (loop' n s)) :
    Alike A on moved' (remaining >>= loop) (remaining >>= loop') where
  forward s := (hloop s s.left (Nat.le_refl _)).forward fun a s => (h a).forward s
  agrees s s' hs _ :=
    Repeats.agrees h (hloop s s.left (Nat.le_refl _)) (hloop' s' s'.left (Nat.le_refl _)) hs

/-- Such loops with what follows them. -/
theorem alike_loop_bind {γ : Type} {moved'' : γ → γ}
    (h : ∀ a, Alike A anyKind (Sum.map moved moved') (round a) (round' (moved a))) {a : α}
    {loop loop' : Nat → Parse β} (hloop : ∀ s n, s.left ≤ n → Repeats round a s (loop n s))
    (hloop' : ∀ s n, s.left ≤ n → Repeats round' (moved a) s (loop' n s))
    {f f' : β → Parse γ} (hf : ∀ b, Alike A anyKind moved'' (f b) (f' (moved' b))) :
    Alike A on moved'' (remaining >>= fun n => loop n >>= f)
      (remaining >>= fun n => loop' n >>= f') := by
  have hb : Alike A on moved'' ((remaining >>= loop) >>= f) ((remaining >>= loop') >>= f') :=
    (alike_loop h hloop hloop').bind hf
  simpa only [bind_assoc] using hb

end Alike

/-! ### Literals and names -/

theorem alike_identifier (hon : ¬ on .endOfInput) :
    Alike A on (Option.map μ.node) identifier identifier :=
  alike_currentToken hon fun _ => alike_pure rfl

theorem alike_boolean : Alike A on (Option.map μ.node) boolean boolean :=
  alike_current fun _ _ ht => alike_pure (by rw [A.kind ht, A.span ht]; rfl)

theorem alike_integer (hon : ¬ on .endOfInput) :
    Alike A on (Option.map μ.node) integer integer := by
  refine alike_currentToken hon fun token => ?_
  rw [Moving.text_token]
  cases Text.readInt token.text with
  | error reason => exact alike_throw _
  | ok value =>
      refine Alike.ite Iff.rfl ?_ (alike_pure rfl)
      exact (alike_complain (.integerTooLarge (A.like_token token) rfl) rfl).bind
        fun _ => alike_pure rfl

/-- The items of a list under a map are all present if they were. -/
theorem allPresent_map {α β : Type} (f : α → β) (items : List (Option α)) :
    allPresent (items.map (Option.map f)) = (allPresent items).map (List.map f) := by
  induction items with
  | nil => rfl
  | cons item rest ih =>
      cases item with
      | none => rfl
      | some a =>
          simp only [List.map_cons, Option.map_some, allPresent, ih, Option.map_map]
          rfl

/-- Readers of nested expressions and statements that are alike. -/
structure AlikeReaders (A : Alignment μ) (expression expression' : Precedence → Parse (Option Node))
    (statement statement' : Parse (Option Node)) : Prop where
  unbounded : Unbounded expression statement
  unbounded' : Unbounded expression' statement'
  expression : ∀ {on} p, Alike A on (Option.map μ.node) (expression p) (expression' p)
  statement : ∀ {on}, Alike A on (Option.map μ.node) statement statement'

section Rules

variable {expression expression' : Precedence → Parse (Option Node)}
variable {statement statement' : Parse (Option Node)}
variable (h : AlikeReaders A expression expression' statement statement')

include h

/-! ### Lists -/

theorem alike_expressionRound (es : List (Option Node)) :
    Alike A on (Sum.map (List.map (Option.map μ.node)) (List.map (Option.map μ.node)))
      (expressionRound expression es)
      (expressionRound expression' (es.map (Option.map μ.node))) := by
  refine alike_peekAdvance (· = .comma) ?_ fun _ _ _ => alike_pure rfl
  exact alike_advance.bind fun _ => (h.expression .lowest).bind fun next => alike_pure (by simp)

theorem alike_expressionList (closing : Kind) :
    Alike A on (Option.map (List.map μ.node)) (expressionList expression closing)
      (expressionList expression' closing) := by
  refine alike_peekAdvance (· = closing) (alike_pure rfl) fun _ _ _ => ?_
  refine alike_advance.bind fun _ => (h.expression .lowest).bind fun first => ?_
  refine alike_loop_bind (alike_expressionRound h) h.unbounded.moreExpressions
    h.unbounded'.moreExpressions fun rest => ?_
  exact alike_expecting closing (alike_pure (allPresent_map μ.node (first :: rest)))

omit h in
theorem alike_parameterRound (names : List Name) :
    Alike A on (Sum.map (List.map μ.name) (Option.map (List.map μ.name))) (parameterRound names)
      (parameterRound (names.map μ.name)) := by
  refine alike_peekAdvance (· = .comma) ?_ fun _ _ _ => alike_pure rfl
  refine alike_expectPeek .identifier ?_ (alike_pure rfl)
  exact (alike_currentName nofun).bind fun name => alike_pure (by simp)

theorem alike_parameters : Alike A on (Option.map (List.map μ.name)) parameters parameters := by
  refine alike_peekAdvance (· = .rightParen) (alike_pure rfl) fun _ _ _ => ?_
  refine alike_expecting .identifier ((alike_currentName nofun).bind fun first => ?_)
  refine alike_loop_bind alike_parameterRound h.unbounded.moreParameters
    h.unbounded'.moreParameters fun rest => ?_
  cases rest with
  | none => exact alike_pure rfl
  | some rest => exact alike_expecting .rightParen (alike_pure rfl)

/-! ### Blocks -/

theorem alike_blockRound (ns : List Node) :
    Alike A on (Sum.map (List.map μ.node) (List.map μ.node)) (blockRound statement ns)
      (blockRound statement' (ns.map μ.node)) := by
  refine alike_current fun token token' ht => ?_
  refine Alike.ite (by rw [A.kind ht]) (alike_pure rfl) ?_
  refine h.statement.bind fun next => alike_advance.bind fun _ => alike_pure ?_
  cases next <;> simp

theorem alike_block : Alike A on μ.node (block statement) (block statement') := by
  refine alike_current fun start start' hstart => alike_advance.bind fun _ => ?_
  refine alike_loop_bind (alike_blockRound h) h.unbounded.blockStatements
    h.unbounded'.blockStatements fun statements => ?_
  refine (alike_spanFrom hstart).bind fun span => alike_pure ?_
  rw [Moving.node, Moving.nodes_eq_map]

/-! ### Operands -/

theorem alike_unary (hon : ¬ on .endOfInput) :
    Alike A on (Option.map μ.node) (unary expression) (unary expression') := by
  refine alike_currentToken hon fun operator => alike_advance.bind fun _ => ?_
  refine (h.expression .unary).bind fun operand => ?_
  refine (alike_spanFrom (A.like_token operator)).bind fun span => alike_pure ?_
  cases operand <;> rfl

theorem alike_grouped :
    Alike A on (Option.map μ.node) (grouped expression) (grouped expression') := by
  refine alike_advance.bind fun _ => (h.expression .lowest).bind fun inner => ?_
  exact alike_expecting .rightParen (alike_pure rfl)

theorem alike_conditional :
    Alike A on (Option.map μ.node) (conditional expression statement)
      (conditional expression' statement') := by
  refine alike_current fun start start' hstart => alike_expecting .leftParen ?_
  refine alike_advance.bind fun _ => (h.expression .lowest).bind fun condition => ?_
  refine alike_expecting .rightParen (alike_expecting .leftBrace ?_)
  refine (alike_block h).bind fun consequence => ?_
  refine alike_peekAdvance (· = .elseWord) (alike_expecting .leftBrace ?_) fun _ _ _ => ?_
  · refine (alike_block h).bind fun alternative => ?_
    refine (alike_spanFrom hstart).bind fun span => alike_pure ?_
    cases condition <;> rfl
  · refine (alike_spanFrom hstart).bind fun span => alike_pure ?_
    cases condition <;> rfl

theorem alike_functionLiteral :
    Alike A on (Option.map μ.node) (functionLiteral statement) (functionLiteral statement') := by
  refine alike_current fun start start' hstart => alike_expecting .leftParen ?_
  refine (alike_parameters h).bind fun names => ?_
  cases names with
  | none => exact alike_pure rfl
  | some names =>
      refine alike_expecting .leftBrace ((alike_block h).bind fun body => ?_)
      exact (alike_spanFrom hstart).bind fun span => alike_pure rfl

theorem alike_arrayLiteral :
    Alike A on (Option.map μ.node) (arrayLiteral expression) (arrayLiteral expression') := by
  refine alike_current fun start start' hstart => ?_
  refine (alike_expressionList h .rightBracket).bind fun elements => ?_
  refine (alike_spanFrom hstart).bind fun span => alike_pure ?_
  cases elements with
  | none => rfl
  | some es => simp [Moving.node, Moving.nodes_eq_map]

/-- The rules for an operand are alike, and they are there for the same kinds. -/
theorem alike_operandRule (k : Kind) :
    (operandRule? expression statement k = none ∧ operandRule? expression' statement' k = none) ∨
      ∃ rule rule', operandRule? expression statement k = some rule ∧
        operandRule? expression' statement' k = some rule' ∧
        Alike A (· = k) (Option.map μ.node) rule rule' := by
  cases k
  case identifier => exact Or.inr ⟨_, _, rfl, rfl, alike_identifier nofun⟩
  case integer => exact Or.inr ⟨_, _, rfl, rfl, alike_integer nofun⟩
  case trueWord => exact Or.inr ⟨_, _, rfl, rfl, alike_boolean⟩
  case falseWord => exact Or.inr ⟨_, _, rfl, rfl, alike_boolean⟩
  case bang => exact Or.inr ⟨_, _, rfl, rfl, alike_unary h nofun⟩
  case minus => exact Or.inr ⟨_, _, rfl, rfl, alike_unary h nofun⟩
  case leftParen => exact Or.inr ⟨_, _, rfl, rfl, alike_grouped h⟩
  case ifWord => exact Or.inr ⟨_, _, rfl, rfl, alike_conditional h⟩
  case funcWord => exact Or.inr ⟨_, _, rfl, rfl, alike_functionLiteral h⟩
  case leftBracket => exact Or.inr ⟨_, _, rfl, rfl, alike_arrayLiteral h⟩
  all_goals exact Or.inl ⟨rfl, rfl⟩

/-! ### Going on from an operand -/

theorem alike_binary (hon : ¬ on .endOfInput) (left : Option Node) :
    Alike A on (Option.map μ.node) (binary expression left)
      (binary expression' (left.map μ.node)) := by
  refine alike_currentToken hon fun operator => alike_advance.bind fun _ => ?_
  refine (h.expression _).bind fun right => alike_pure ?_
  cases left <;> cases right <;> simp [Moving.node, μ.span_cover]

theorem alike_call (callee : Option Node) :
    Alike A on (Option.map μ.node) (call expression callee)
      (call expression' (callee.map μ.node)) := by
  refine (alike_expressionList h .rightParen).bind fun arguments => ?_
  refine alike_current fun last last' hlast => alike_pure ?_
  cases callee <;> cases arguments <;>
    simp [Moving.node, Moving.nodes_eq_map, μ.span_cover, A.span hlast]

theorem alike_index (collection : Option Node) :
    Alike A on (Option.map μ.node) (index expression collection)
      (index expression' (collection.map μ.node)) := by
  refine alike_advance.bind fun _ => (h.expression .lowest).bind fun position => ?_
  refine alike_expecting .rightBracket (alike_current fun last last' hlast => alike_pure ?_)
  cases collection <;> cases position <;> simp [Moving.node, μ.span_cover, A.span hlast]

theorem alike_extend (hon : ¬ on .endOfInput) (left : Option Node) :
    Alike A on (Option.map μ.node) (extend expression left)
      (extend expression' (left.map μ.node)) := by
  refine alike_currentToken hon fun token => ?_
  rw [Moving.kind_token]
  split
  · exact alike_call h left
  · exact alike_index h left
  · exact alike_binary h hon left

theorem alike_extendRound (precedence : Precedence) (left : Option Node) :
    Alike A on (Sum.map (Option.map μ.node) (Option.map μ.node))
      (extendRound expression precedence left)
      (extendRound expression' precedence (left.map μ.node)) := by
  have hend : ¬ precedence.rank < Kind.endOfInput.precedence.rank := by
    cases precedence <;> decide
  refine alike_peekAdvance (fun k => precedence.rank < k.precedence.rank) ?_
    fun _ _ _ => alike_pure rfl
  exact (alike_extend h hend left).bind fun extended => alike_pure rfl

theorem alike_expressionBy (precedence : Precedence) :
    Alike A on (Option.map μ.node) (expressionBy expression statement precedence)
      (expressionBy expression' statement' precedence) := by
  refine alike_current fun token token' ht => ?_
  rw [A.kind ht]
  obtain ⟨hr, hr'⟩ | ⟨rule, rule', hr, hr', hrule⟩ := alike_operandRule h token.kind
  · rw [hr, hr']
    exact (alike_complain (.noOperand ht) (A.span ht)).bind fun _ => alike_pure rfl
  · rw [hr, hr']
    refine hrule.bind fun operand => ?_
    exact alike_loop (alike_extendRound h precedence) (h.unbounded.extendWhile precedence operand)
      (h.unbounded'.extendWhile precedence (operand.map μ.node))

/-! ### Statements -/

theorem alike_letStatement :
    Alike A on (Option.map μ.node) (letStatement expression) (letStatement expression') := by
  refine alike_current fun start start' hstart => alike_expecting .identifier ?_
  refine (alike_currentName nofun).bind fun name => alike_expecting .assign ?_
  refine alike_advance.bind fun _ => (h.expression .lowest).bind fun value => ?_
  refine alike_skipSemicolon.bind fun _ => (alike_spanFrom hstart).bind fun span => alike_pure ?_
  cases value <;> rfl

theorem alike_returnStatement :
    Alike A on (Option.map μ.node) (returnStatement expression) (returnStatement expression') := by
  refine alike_current fun start start' hstart => ?_
  refine alike_advance.bind fun _ => (h.expression .lowest).bind fun value => ?_
  refine alike_skipSemicolon.bind fun _ => (alike_spanFrom hstart).bind fun span => alike_pure ?_
  cases value <;> rfl

theorem alike_expressionStatement :
    Alike A on (Option.map μ.node) (expressionStatement expression)
      (expressionStatement expression') := by
  refine alike_current fun start start' hstart => (h.expression .lowest).bind fun value => ?_
  refine alike_skipSemicolon.bind fun _ => (alike_spanFrom hstart).bind fun span => alike_pure ?_
  cases value <;> rfl

theorem alike_statementBy :
    Alike A on (Option.map μ.node) (statementBy expression) (statementBy expression') := by
  refine alike_current fun token token' ht => ?_
  rw [A.kind ht]
  split
  · exact alike_letStatement h
  · exact alike_returnStatement h
  · exact alike_expressionStatement h

end Rules

/-! ### Nesting -/

/-- A step that reaches the nesting limit, where the other one need not do so. -/
theorem alike_tooDeep {α : Type} {moved : α → α} (hd : A.Deeper) (step : Parse α) :
    Alike A on moved (throw .tooDeep) step where
  forward := Follows.refl
  agrees _ _ _ _ _ := Or.inl ⟨hd, rfl⟩

/-- Readers are alike if they have the same number of levels, or if the second one has more and need
not reach the limit where the first one does. -/
theorem alike_readers {depth depth' : Nat}
    (hd : depth = depth' ∨ A.Deeper ∧ depth ≤ depth') :
    AlikeReaders A (expression depth) (expression depth') (statement depth) (statement depth') := by
  have hu : ∀ n, Unbounded (expression n) (statement n) := fun n =>
    unbounded_of_orderly (orderly_expression n) (orderly_statement n)
  induction depth generalizing depth' with
  | zero =>
      obtain rfl | ⟨hm, -⟩ := hd
      · exact ⟨hu 0, hu 0, fun _ => alike_throw _, alike_throw _⟩
      · exact ⟨hu 0, hu depth', fun _ => alike_tooDeep hm _, alike_tooDeep hm _⟩
  | succ depth ih =>
      obtain ⟨levels, rfl, hl⟩ : ∃ levels, depth' = levels + 1 ∧
          (depth = levels ∨ A.Deeper ∧ depth ≤ levels) := by
        obtain rfl | ⟨hm, hle⟩ := hd
        · exact ⟨depth, rfl, Or.inl rfl⟩
        · exact ⟨depth' - 1, by omega, Or.inr ⟨hm, by omega⟩⟩
      have hr := ih hl
      refine ⟨hu _, hu _, fun precedence => ?_, ?_⟩
      · rw [expression, expression]
        exact alike_expressionBy hr precedence
      · rw [statement, statement]
        exact alike_statementBy hr

/-! ### Programs -/

theorem alike_guarded {statement statement' : Parse (Option Node)}
    (h : Alike A on (Option.map μ.node) statement statement') :
    Alike A on (Option.map (Option.map μ.node)) (guarded statement) (guarded statement') where
  forward s := by
    have hf := h.forward s
    unfold guarded
    cases hr : statement s with
    | ok n t => rw [hr] at hf; exact hf
    | error fault t =>
        rw [hr] at hf
        cases fault
        case tooDeep => exact hf.trans (Follows.noting t _ _)
        all_goals exact hf
  agrees s s' hs hk := by
    have hstep := h.agrees s s' hs hk
    unfold guarded
    cases hr : statement s with
    | ok n t =>
        intro hl
        rw [hr] at hstep
        obtain ⟨t', ht', hat⟩ := hstep hl
        rw [ht']
        exact ⟨t', rfl, hat⟩
    | error fault t =>
        rw [hr] at hstep
        cases fault
        case tooDeep =>
          -- If the second parse may go on here, the two are not compared any further.
          intro hl
          obtain ⟨hd, -⟩ | ⟨t', ht', hat⟩ :=
            hstep (A.ahead_of_follows (Follows.noting t _ _) hl)
          · exact absurd hl (A.not_ahead hd t _)
          · rw [ht']
            have hn := A.noting t.token.span .nestedTooDeep hat
            rw [← A.span (A.token hat)] at hn
            exact ⟨_, rfl, hn⟩
        all_goals
          intro hl
          obtain ⟨-, hd⟩ | ⟨t', ht', hat⟩ := hstep hl
          · cases hd
          · rw [ht']
            exact Or.inr ⟨t', rfl, hat⟩

section Programs

variable {depth depth' : Nat} (hd : depth = depth' ∨ A.Deeper ∧ depth ≤ depth')

include hd

theorem alike_programRound (ns : List Node) :
    Alike A on (Sum.map (List.map μ.node) (List.map μ.node)) (programRound (statement depth) ns)
      (programRound (statement depth') (ns.map μ.node)) := by
  refine alike_current fun token token' ht => Alike.ite (by rw [A.kind ht]) (alike_pure rfl) ?_
  refine (alike_guarded (alike_readers hd).statement).bind fun next => ?_
  cases next with
  | none => exact alike_pure rfl
  | some next =>
      refine alike_advance.bind fun _ => alike_pure ?_
      cases next <;> simp

/-- Programs are read alike. -/
theorem alike_program : Alike A on μ.node (program depth) (program depth') := by
  have h := alike_readers hd
  refine alike_current fun start start' hstart => ?_
  refine alike_loop_bind (alike_programRound hd) h.unbounded.programStatements
    h.unbounded'.programStatements fun statements => ?_
  refine (alike_spanFrom hstart).bind fun span => alike_pure ?_
  rw [Moving.node, Moving.nodes_eq_map]

end Programs

/-! ### Alignments -/

/-- A parse with more levels, up to where the one with fewer levels gives up. -/
def deeper : Alignment Moving.stay where
  Like t t' := t' = Moving.stay.token t
  Aligned s s' := s' = s
  Ahead := ParseState.Within
  Deeper := True
  like_token _ := rfl
  kind h := by rw [h, Moving.kind_token]
  span h := by rw [h, Moving.token]
  eq_token h _ := h
  token h := by rw [h, Moving.stay_token]
  next h _ := by rw [h]
  noting span hc h := by
    rw [h, Moving.complaint_of_relates hc, Moving.stay_complaint, Moving.stay_span]
  ahead_of_follows hf hw d hd := hw d (hf.diagnostics.mem hd)
  not_ahead _ s span hw := hw ⟨.nestedTooDeep, span⟩ (by simp) rfl

/-- A parse of the same tokens at their new places. -/
def moved (μ : Moving) : Alignment μ where
  Like t t' := t' = μ.token t
  Aligned s s' := s' = μ.state s
  Ahead _ := True
  Deeper := False
  like_token _ := rfl
  kind h := by rw [h, Moving.kind_token]
  span h := by rw [h, Moving.token]
  eq_token h _ := h
  token h := by rw [h, Moving.state_token]
  next h _ := by rw [h, Moving.state_next]
  noting span hc h := by rw [h, Moving.complaint_of_relates hc, Moving.state_noting]
  ahead_of_follows _ _ := True.intro
  not_ahead h := h.elim

end Parse

/-- A parse that does not reach the nesting limit is the same with more levels. -/
theorem TokenStream.parseWithin_deeper {stream : TokenStream} {depth depth' : Nat} {parsed : Parsed}
    (h : stream.parseWithin depth = .ok parsed) (hl : parsed.WithinLimit) (hd : depth ≤ depth') :
    stream.parseWithin depth' = .ok parsed := by
  have hp : Parse.Alike Parse.deeper Parse.anyKind Moving.stay.node (Parse.program depth)
      (Parse.program depth') := Parse.alike_program (Or.inr ⟨trivial, hd⟩)
  have hagree := hp.agrees { stream } { stream } rfl True.intro
  unfold parseWithin at h ⊢
  cases hs : Parse.program depth { stream } with
  | error fault s => simp [hs] at h
  | ok tree s =>
      rw [hs] at hagree h
      cases h
      obtain ⟨s', hs', rfl⟩ := hagree hl
      rw [hs', Moving.stay_node]

end ExprLang
