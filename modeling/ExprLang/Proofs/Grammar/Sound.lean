import ExprLang.Proofs.Grammar.Basic
import ExprLang.Proofs.Parsing.Building
import ExprLang.Proofs.Syntax.Unplaced

/-!
# What is read without a diagnostic is derived

Where a reader adds no diagnostic, the tokens that it went over make up the phrase that it reads,
and its tree is the tree of that phrase.

## Implementation notes

Diagnostics are never taken back, so a step that adds none consists of steps that add none. This is
used once, in the rule for two steps in a row: what is derived by the first of them is there as a
premise for the second.
-/

namespace ExprLang

namespace ParseState

/-- The tokens to come are the current one and those behind it. -/
theorem upcoming_eq_cons {s : ParseState} (h : s.token.kind ≠ .endOfInput) :
    s.upcoming = s.token.unplaced :: s.next.upcoming := by
  cases hp : s.stream.pending with
  | nil => simp [token, TokenStream.head, hp, Token.ending] at h
  | cons t rest => simp [upcoming, token, TokenStream.head, hp]

theorem leading_upcoming (s : ParseState) : Grammar.leading s.upcoming = s.token.kind := by
  cases hu : s.upcoming with
  | nil => exact (kind_of_upcoming_nil hu).symm
  | cons t rest => exact (kind_of_upcoming hu).symm

theorem Scanned.upcoming_eq_nil {s : ParseState} (h : s.Scanned)
    (hk : s.token.kind = .endOfInput) : s.upcoming = [] := by
  cases hp : s.stream.pending with
  | nil => simp [upcoming, hp]
  | cons t rest =>
      have hm : s.token ∈ s.stream.pending := by simp [ParseState.token, TokenStream.head, hp]
      exact absurd hk (h s.token hm).ne_endOfInput

theorem Scanned.of_follows {s s' : ParseState} (h : s.Scanned) (hf : Parse.Follows s s') :
    s'.Scanned :=
  fun t ht => h t (hf.pending.mem ht)

end ParseState

namespace Grammar

open Parse

/-! ### Steps -/

section SoundAt

variable {α β : Type} {s : ParseState} {derived : α → ParseState → Prop}

/-- From a state in a program, a step goes forward, and if it adds no diagnostic then something is
derived at its end. -/
def SoundAt (s : ParseState) (derived : α → ParseState → Prop) (step : Parse α) : Prop :=
  s.Scanned → Ends step s
    (fun a s' => Follows s s' ∧ (s'.diagnostics = s.diagnostics → derived a s')) anyFault

theorem SoundAt.pure {a : α} (h : derived a s) : SoundAt s derived (pure a) :=
  fun _ => ⟨Follows.refl s, fun _ => h⟩

theorem SoundAt.imp {derived' : α → ParseState → Prop} {step : Parse α}
    (h : SoundAt s derived step) (hi : ∀ a s', derived a s' → derived' a s') :
    SoundAt s derived' step :=
  fun hs => Ends.imp (h hs) fun a s' hr => ⟨hr.1, fun hd => hi a s' (hr.2 hd)⟩

/-- What is known of a state in a program may be used. -/
theorem SoundAt.scanned {step : Parse α} (h : s.Scanned → SoundAt s derived step) :
    SoundAt s derived step :=
  fun hs => h hs hs

/-- Two steps in a row, where what the first one derives is there for the second. -/
theorem SoundAt.bind {derived' : β → ParseState → Prop} {step : Parse α} {f : α → Parse β}
    (h : SoundAt s derived step)
    (hf : ∀ a s', Follows s s' → SoundAt s' (fun b s'' => derived a s' → derived' b s'') (f a)) :
    SoundAt s derived' (step >>= f) := by
  intro hs
  refine (ends_bind step f).mpr (Ends.imp (h hs) ?_)
  rintro a s₁ ⟨hs₁, ha⟩
  apply Ends.imp (hf a s₁ hs₁ (hs.of_follows hs₁))
  rintro b s₂ ⟨hs₂, hb⟩
  refine ⟨hs₁.trans hs₂, fun hd => ?_⟩
  have hd₁ : s₁.diagnostics = s.diagnostics := hs₁.diagnostics_eq hs₂ hd
  exact hb (hd.trans hd₁.symm) (ha hd₁)

theorem SoundAt.ite {p : Prop} [Decidable p] {step step' : Parse α}
    (h : p → SoundAt s derived step) (h' : ¬ p → SoundAt s derived step') :
    SoundAt s derived (if p then step else step') := by
  by_cases hp : p
  · rw [if_pos hp]; exact h hp
  · rw [if_neg hp]; exact h' hp

theorem SoundAt.current {f : Token → Parse α} (h : SoundAt s derived (f s.token)) :
    SoundAt s derived (current >>= f) := h

theorem SoundAt.peek {f : Token → Parse α} (h : SoundAt s derived (f s.next.token)) :
    SoundAt s derived (peek >>= f) := h

theorem SoundAt.remaining {f : Nat → Parse α} (h : SoundAt s derived (f s.stream.pending.length)) :
    SoundAt s derived (remaining >>= f) := h

theorem SoundAt.spanFrom {start : Token} {f : Span → Parse α}
    (h : ∀ span, SoundAt s derived (f span)) : SoundAt s derived (spanFrom start >>= f) := h _

theorem SoundAt.currentName {f : Name → Parse α}
    (h : SoundAt s derived (f ⟨s.token.text, s.token.span⟩)) :
    SoundAt s derived (currentName >>= f) := h

theorem SoundAt.next {step : Parse α} (h : SoundAt s.next derived step) (hs : s.Scanned) :
    Ends step s.next
      (fun a s' => Follows s s' ∧ (s'.diagnostics = s.diagnostics → derived a s')) anyFault := by
  apply Ends.imp (h hs.next)
  rintro a s' ⟨hf, hd⟩
  exact ⟨(Follows.next s).trans hf, hd⟩

theorem SoundAt.advance {f : Unit → Parse α} (h : SoundAt s.next derived (f ())) :
    SoundAt s derived (advance >>= f) :=
  h.next

/-- Only the token that is expected adds no diagnostic. -/
theorem SoundAt.expecting {derived : Option α → ParseState → Prop} {kind : Kind}
    {step : Parse (Option α)} (h : s.next.token.kind = kind → SoundAt s.next derived step) :
    SoundAt s derived (expecting kind step) := by
  intro hs
  rw [ends_expecting]
  split
  · next hk => exact (h hk).next hs
  · exact ⟨Follows.noting s _ _, fun hd => by simp at hd⟩

theorem SoundAt.skipSemicolon {f : Unit → Parse α}
    (h : s.next.token.kind = .semicolon → SoundAt s.next derived (f ()))
    (h' : s.next.token.kind ≠ .semicolon → SoundAt s derived (f ())) :
    SoundAt s derived (skipSemicolon >>= f) := by
  intro hs
  rw [ends_bind, ends_skipSemicolon]
  split
  · next hk => exact (h hk).next hs
  · next hk => exact h' hk hs

end SoundAt

/-! ### Expressions that grow -/

theorem Derives.chain_append {ts us vs : List Token} {rest rest' : List (Token × Node)}
    (h : Derives .chain ts us rest) (h' : Derives .chain us vs rest') :
    Derives .chain ts vs (rest ++ rest') := by
  induction rest generalizing ts with
  | nil => cases h with | noOperator => exact h'
  | cons x rest ih => cases h with | chain hk ho hr => exact .chain hk ho (ih hr)

/-- An operand with operators that bind tighter than a precedence, and no further such operator
behind it. -/
def Bounded (p : Precedence) (ts us : List Token) (e : Node) : Prop :=
  ∃ vs first rest, Derives .operand ts vs first ∧ Derives .chain vs us rest ∧
    Grouped Token.rank first rest e ∧ (∀ x ∈ rest, p.rank < x.1.rank) ∧
    (leading us).precedence.rank ≤ p.rank

/-- An operand with operators that bind tighter than a precedence, where no further operator behind
it binds tighter than one of these. -/
def Grown (p : Precedence) (ts us : List Token) (e : Node) : Prop :=
  ∃ vs first rest, Derives .operand ts vs first ∧ Derives .chain vs us rest ∧
    Grouped Token.rank first rest e ∧
    ∀ x ∈ rest, p.rank < x.1.rank ∧ (leading us).precedence.rank ≤ x.1.rank

/-- What the loop of an expression has before it: an operand that may have more suffixes, or one
with operators. -/
def Growing (p : Precedence) (ts us : List Token) (e : Node) : Prop :=
  Derives .suffixed ts us e ∨
    (Grown p ts us e ∧ leading us ≠ .leftParen ∧ leading us ≠ .leftBracket)

section Growing

variable {p : Precedence} {ts us vs : List Token} {e right : Node}

theorem Kind.precedence?_eq_none {k : Kind} (h : k.precedence.rank ≤ 1) :
    k.precedence? = none := by
  revert h
  cases k <;> simp [Kind.precedence, Kind.precedence?, Precedence.rank]

/-- No token that continues an expression follows an expression of lowest precedence. -/
theorem Bounded.expression (h : Bounded .lowest ts us e) :
    Derives .expression ts us e ∧ (leading us).precedence? = none := by
  obtain ⟨vs, first, rest, ho, hr, hg, -, hk⟩ := h
  exact ⟨.expression ho hr hg, Kind.precedence?_eq_none hk⟩

theorem ne_bracket_of_rank_le {k : Kind} (h : k.precedence.rank ≤ 6) :
    k ≠ .leftParen ∧ k ≠ .leftBracket := by
  constructor <;> rintro rfl <;> exact absurd h (by decide)

/-- No operator binds tighter than a prefix operator. -/
theorem Bounded.operand (h : Bounded .unary ts us e) :
    Derives .operand ts us e ∧ leading us ≠ .leftParen ∧ leading us ≠ .leftBracket := by
  obtain ⟨vs, first, rest, ho, hr, hg, hrest, hk⟩ := h
  cases hr with
  | noOperator => exact ⟨hg.eq_of_nil ▸ ho, ne_bracket_of_rank_le hk⟩
  | @chain operator ts₁ us₁ _ operand rest hb ho' hr =>
      have hlt : Precedence.unary.rank < operator.rank := hrest (operator, operand) (by simp)
      have hle := (Kind.rank_of_isBinary hb).2
      exact absurd (Nat.lt_of_lt_of_le hlt hle) (by decide)

theorem Growing.grown (h : Growing p ts us e) : Grown p ts us e := by
  rcases h with h | ⟨h, -⟩
  · exact ⟨us, e, [], .suffixed h, .noOperator, .single e, by simp⟩
  · exact h

theorem Growing.suffixed (h : Growing p ts us e)
    (hk : leading us = .leftParen ∨ leading us = .leftBracket) : Derives .suffixed ts us e := by
  rcases h with h | ⟨-, hp, hb⟩
  · exact h
  · rcases hk with hk | hk
    · exact absurd hk hp
    · exact absurd hk hb

theorem Grown.bounded (h : Grown p ts us e) (hk : (leading us).precedence.rank ≤ p.rank) :
    Bounded p ts us e := by
  obtain ⟨vs, first, rest, ho, hr, hg, hrest⟩ := h
  exact ⟨vs, first, rest, ho, hr, hg, fun x hx => (hrest x hx).1, hk⟩

/-- What has grown is the left operand of the operator behind it. -/
theorem Grown.binary {operator : Token} (h : Grown p ts (operator :: us) e)
    (hb : operator.kind.isBinary = true) (hp : p.rank < operator.rank)
    (hr : Bounded operator.kind.precedence us vs right) :
    Growing p ts vs (.binary e operator right Span.nowhere) := by
  obtain ⟨ws, first, rest, ho, hc, hg, hrest⟩ := h
  obtain ⟨ws', first', rest', ho', hc', hg', hrest', hk⟩ := hr
  refine Or.inr ⟨⟨ws, first, rest ++ (operator, first') :: rest', ho,
    hc.chain_append (.chain hb ho' hc'), ?_, ?_⟩, ?_⟩
  · exact .split (fun x hx => (hrest x hx).2) hrest' hg hg'
  · intro x hx
    rcases List.mem_append.mp hx with hx | hx
    · exact ⟨(hrest x hx).1, Nat.le_trans hk (hrest x hx).2⟩
    · rcases List.mem_cons.mp hx with rfl | hx
      · exact ⟨hp, hk⟩
      · exact ⟨Nat.lt_trans hp (hrest' x hx), Nat.le_trans hk (Nat.le_of_lt (hrest' x hx))⟩
  · have hle := (Kind.rank_of_isBinary hb).2
    exact ne_bracket_of_rank_le (by omega)

end Growing

/-! ### Literals and names -/

/-- A tree was read, and it is derived from the tokens between two states. -/
def Found (derives : List Token → List Token → Node → Prop) (s : ParseState)
    (result : Option Node) (s' : ParseState) : Prop :=
  ∃ n, result = some n ∧ derives s.upcoming s'.next.upcoming n.unplaced

section Primary

variable {s : ParseState}

theorem soundAt_identifier (hk : s.token.kind = .identifier) :
    SoundAt s (Found (Derives .primary) s) identifier := by
  refine SoundAt.current (SoundAt.pure ⟨_, rfl, ?_⟩)
  rw [ParseState.upcoming_eq_cons (by simp [hk])]
  exact Derives.identifier hk

theorem soundAt_boolean (hk : s.token.kind = .trueWord ∨ s.token.kind = .falseWord) :
    SoundAt s (Found (Derives .primary) s) boolean := by
  refine SoundAt.current (SoundAt.pure ⟨_, rfl, ?_⟩)
  rw [ParseState.upcoming_eq_cons (by rcases hk with hk | hk <;> simp [hk])]
  exact Derives.boolean hk

theorem soundAt_integer (hk : s.token.kind = .integer) :
    SoundAt s (Found (Derives .primary) s) integer := by
  intro hs
  have hn := hs.isNumeral hk
  simp only [integer, ends_bind, ends_current]
  cases hv : Text.readInt s.token.text with
  | error reason => exact True.intro
  | ok value =>
      simp only [ends_ite, ends_bind, ends_complain, ends_pure]
      split
      · exact ⟨Follows.noting s _ _, fun hd => by simp at hd⟩
      · next hle =>
          refine ⟨Follows.refl s, fun _ => ⟨_, rfl, ?_⟩⟩
          obtain rfl := Text.eq_decimal_of_readInt hn hv
          rw [ParseState.upcoming_eq_cons (by simp [hk])]
          apply Derives.integer (t := s.token.unplaced) hk hn
          have hmax : maxInteger = 9223372036854775807 := rfl
          simp only [Token.unplaced]
          omega

end Primary

section Rules

variable {expression : Precedence → Parse (Option Node)} {statement : Parse (Option Node)}
variable (he : ∀ p s, SoundAt s (Found (Bounded p) s) (expression p))
variable (hst : ∀ s, SoundAt s (Found (Derives .statement) s) statement)

/-! ### Lists -/

include he in
theorem soundAt_moreExpressions (rounds : Nat) (s : ParseState) :
    SoundAt s (fun results s' => ∃ nodes : List Node, results = nodes.map some ∧
        Derives .more s.next.upcoming s'.next.upcoming (nodes.map Node.unplaced))
      (moreExpressions expression rounds) := by
  induction rounds generalizing s with
  | zero => exact SoundAt.pure ⟨[], rfl, .noMore⟩
  | succ rounds ih =>
      refine SoundAt.peek (SoundAt.ite (fun hk => ?_) fun _ => SoundAt.pure ⟨[], rfl, .noMore⟩)
      refine SoundAt.advance (SoundAt.advance ?_)
      refine (he .lowest _).bind fun next s₁ _ => ?_
      refine (ih s₁).bind fun rest s₂ _ => SoundAt.pure ?_
      rintro ⟨nodes, rfl, hm⟩ ⟨n, rfl, hn⟩
      refine ⟨n :: nodes, rfl, ?_⟩
      rw [ParseState.upcoming_eq_cons (s := s.next) (by simp [hk])]
      exact .more hk hn.expression.1 hm

include he in
theorem soundAt_expressionList {closing : Kind} (hc : closing ≠ .endOfInput) (s : ParseState) :
    SoundAt s (fun result s' => ∃ nodes, result = some nodes ∧
        Derives (.list closing) s.next.upcoming s'.next.upcoming (nodes.map Node.unplaced))
      (expressionList expression closing) := by
  refine SoundAt.peek (SoundAt.ite (fun hk => ?_) (fun _ => ?_))
  · refine SoundAt.advance (SoundAt.pure ⟨[], rfl, ?_⟩)
    rw [ParseState.upcoming_eq_cons (by rw [hk]; exact hc)]
    exact .emptyList hk
  · apply SoundAt.advance
    refine (he .lowest _).bind fun first s₁ _ => SoundAt.remaining ?_
    refine (soundAt_moreExpressions he _ s₁).bind fun rest s₂ _ => ?_
    refine SoundAt.expecting fun hk => SoundAt.pure ?_
    rintro ⟨nodes, rfl, hm⟩ ⟨n, rfl, hn⟩
    refine ⟨n :: nodes, ?_, ?_⟩
    · simp [allPresent, allPresent_map_some]
    · rw [ParseState.upcoming_eq_cons (s := s₂.next) (by rw [hk]; exact hc)] at hm
      exact .list hn.expression.1 hm hk

theorem soundAt_moreParameters (rounds : Nat) (s : ParseState) :
    SoundAt s (fun result s' => ∃ names, result = some names ∧
        Derives .moreParameters s.next.upcoming s'.next.upcoming (names.map Name.unplaced))
      (moreParameters rounds) := by
  induction rounds generalizing s with
  | zero => exact SoundAt.pure ⟨[], rfl, .noMoreParameters⟩
  | succ rounds ih =>
      refine SoundAt.peek (SoundAt.ite (fun hk => ?_)
        fun _ => SoundAt.pure ⟨[], rfl, .noMoreParameters⟩)
      refine SoundAt.advance (SoundAt.expecting fun hk' => SoundAt.currentName ?_)
      refine (ih _).bind fun rest s₁ _ => SoundAt.pure ?_
      rintro ⟨names, rfl, hm⟩
      refine ⟨_, rfl, ?_⟩
      rw [ParseState.upcoming_eq_cons (s := s.next) (by simp [hk]),
        ParseState.upcoming_eq_cons (s := s.next.next) (by simp [hk'])]
      exact .moreParameters hk hk' hm

theorem soundAt_parameters (s : ParseState) :
    SoundAt s (fun result s' => ∃ names, result = some names ∧
        Derives .parameters s.next.upcoming s'.next.upcoming (names.map Name.unplaced))
      parameters := by
  refine SoundAt.peek (SoundAt.ite (fun hk => ?_) (fun _ => ?_))
  · refine SoundAt.advance (SoundAt.pure ⟨[], rfl, ?_⟩)
    rw [ParseState.upcoming_eq_cons (by simp [hk])]
    exact .noParameters hk
  · refine SoundAt.expecting fun hn => SoundAt.currentName (SoundAt.remaining ?_)
    refine (soundAt_moreParameters _ _).bind fun rest s₁ _ => ?_
    cases rest with
    | none => exact SoundAt.pure fun ⟨_, h, _⟩ => by cases h
    | some rest =>
        refine SoundAt.expecting fun hc => SoundAt.pure ?_
        rintro ⟨names, ⟨⟩, hm⟩
        refine ⟨_, rfl, ?_⟩
        rw [ParseState.upcoming_eq_cons (s := s₁.next) (by simp [hc])] at hm
        rw [ParseState.upcoming_eq_cons (s := s.next) (by simp [hn])]
        exact .parameters hn hm hc

/-! ### Blocks -/

include hst in
theorem soundAt_blockStatements {rounds : Nat} {s : ParseState}
    (hr : s.stream.pending.length ≤ rounds) :
    SoundAt s (fun nodes s' =>
        Derives .statements s.upcoming s'.upcoming (nodes.map Node.unplaced) ∧
          (s'.token.kind = .rightBrace ∨ s'.upcoming = []))
      (blockStatements statement rounds) := by
  induction rounds generalizing s with
  | zero =>
      have hp : s.stream.pending = [] := List.length_eq_zero_iff.mp (Nat.le_zero.mp hr)
      exact SoundAt.pure ⟨.noStatement, Or.inr (by simp [ParseState.upcoming, hp])⟩
  | succ rounds ih =>
      refine SoundAt.scanned fun hs => SoundAt.current (SoundAt.ite (fun hk => ?_) fun hk => ?_)
      · exact SoundAt.pure ⟨.noStatement, hk.imp_right hs.upcoming_eq_nil⟩
      · have hpos : 0 < s.stream.pending.length :=
          List.length_pos_of_mem (token_mem_pending fun h => hk (Or.inr h))
        refine (hst s).bind fun next s₁ hf => SoundAt.advance ?_
        have hlen := hf.length_pending_le
        refine (ih (by simp; omega)).bind fun rest s₂ _ => SoundAt.pure ?_
        rintro ⟨hrest, hend⟩ ⟨n, rfl, hn⟩
        exact ⟨.statements hn hrest, hend⟩

include hst in
theorem soundAt_block {s : ParseState} (hk : s.token.kind = .leftBrace) :
    SoundAt s (fun b s' => Derives .block s.upcoming s'.next.upcoming b.unplaced)
      (block statement) := by
  refine SoundAt.current (SoundAt.advance (SoundAt.remaining ?_))
  refine (soundAt_blockStatements hst (Nat.le_refl _)).bind fun nodes s₁ _ => ?_
  refine SoundAt.spanFrom fun span => SoundAt.pure ?_
  rintro ⟨hn, hend⟩
  rw [ParseState.upcoming_eq_cons (s := s) (by simp [hk]), Node.unplaced, Node.unplacedAll_eq_map]
  rcases hend with hc | hnil
  · rw [ParseState.upcoming_eq_cons (s := s₁) (by simp [hc])] at hn
    exact .closedBlock hk hn hc
  · rw [ParseState.next_upcoming s₁, hnil]
    exact .openBlock hk (hnil ▸ hn)

/-! ### Operands -/

include he in
theorem soundAt_unary {s : ParseState} (p : Precedence) (hk : s.token.kind.isUnary = true) :
    SoundAt s (Found (Growing p) s) (unary expression) := by
  refine SoundAt.current (SoundAt.advance ?_)
  refine (he .unary _).bind fun operand s₁ _ => SoundAt.spanFrom fun span => ?_
  apply SoundAt.pure
  rintro ⟨n, rfl, hn⟩
  refine ⟨_, rfl, Or.inr ⟨⟨_, _, [], ?_, .noOperator, .single _, by simp⟩, hn.operand.2⟩⟩
  rw [ParseState.upcoming_eq_cons (s := s) (by intro h; simp [h, Kind.isUnary] at hk)]
  exact .unary hk hn.operand.1

include he in
theorem soundAt_grouped {s : ParseState} (hk : s.token.kind = .leftParen) :
    SoundAt s (Found (Derives .primary) s) (grouped expression) := by
  refine SoundAt.advance ((he .lowest _).bind fun inner s₁ _ => ?_)
  refine SoundAt.expecting fun hc => SoundAt.pure ?_
  rintro ⟨n, rfl, hn⟩
  have hn := hn.expression.1
  rw [ParseState.upcoming_eq_cons (s := s₁.next) (by simp [hc])] at hn
  refine ⟨n, rfl, ?_⟩
  rw [ParseState.upcoming_eq_cons (s := s) (by simp [hk])]
  exact .grouped hk hn hc

include he hst in
theorem soundAt_conditional {s : ParseState} (hk : s.token.kind = .ifWord) :
    SoundAt s (Found (Derives .primary) s) (conditional expression statement) := by
  refine SoundAt.current (SoundAt.expecting fun ho => SoundAt.advance ?_)
  refine (he .lowest _).bind fun condition s₁ _ => ?_
  refine SoundAt.expecting fun hc => SoundAt.expecting fun hb => ?_
  refine (soundAt_block hst hb).bind fun consequence s₂ _ => ?_
  refine SoundAt.peek (SoundAt.ite (fun hw => ?_) (fun _ => ?_))
  · refine SoundAt.advance (SoundAt.expecting fun hb' => ?_)
    refine (soundAt_block hst hb').bind fun alternative s₃ _ => SoundAt.spanFrom fun span => ?_
    apply SoundAt.pure
    rintro hf ht ⟨n, rfl, hn⟩
    have hn := hn.expression.1
    rw [ParseState.upcoming_eq_cons (s := s₁.next) (by simp [hc])] at hn
    rw [ParseState.upcoming_eq_cons (s := s₂.next) (by simp [hw])] at ht
    refine ⟨_, rfl, ?_⟩
    rw [ParseState.upcoming_eq_cons (s := s) (by simp [hk]),
      ParseState.upcoming_eq_cons (s := s.next) (by simp [ho])]
    exact .ifElse hk ho hn hc ht hw hf
  · refine SoundAt.spanFrom fun span => SoundAt.pure ?_
    rintro ht ⟨n, rfl, hn⟩
    have hn := hn.expression.1
    rw [ParseState.upcoming_eq_cons (s := s₁.next) (by simp [hc])] at hn
    refine ⟨_, rfl, ?_⟩
    rw [ParseState.upcoming_eq_cons (s := s) (by simp [hk]),
      ParseState.upcoming_eq_cons (s := s.next) (by simp [ho])]
    exact .ifThen hk ho hn hc ht

include hst in
theorem soundAt_functionLiteral {s : ParseState} (hk : s.token.kind = .funcWord) :
    SoundAt s (Found (Derives .primary) s) (functionLiteral statement) := by
  refine SoundAt.current (SoundAt.expecting fun ho => ?_)
  refine (soundAt_parameters _).bind fun names s₁ _ => ?_
  cases names with
  | none => exact SoundAt.pure fun ⟨_, h, _⟩ => by cases h
  | some names =>
      refine SoundAt.expecting fun hb => ?_
      refine (soundAt_block hst hb).bind fun body s₂ _ => SoundAt.spanFrom fun span => ?_
      apply SoundAt.pure
      rintro hbody ⟨names', ⟨⟩, hp⟩
      refine ⟨_, rfl, ?_⟩
      rw [ParseState.upcoming_eq_cons (s := s) (by simp [hk]),
        ParseState.upcoming_eq_cons (s := s.next) (by simp [ho])]
      exact .function hk ho hp hbody

include he in
theorem soundAt_arrayLiteral {s : ParseState} (hk : s.token.kind = .leftBracket) :
    SoundAt s (Found (Derives .primary) s) (arrayLiteral expression) := by
  refine SoundAt.current ((soundAt_expressionList he (by decide) s).bind fun elements s₁ _ => ?_)
  refine SoundAt.spanFrom fun span => SoundAt.pure ?_
  rintro ⟨nodes, rfl, hn⟩
  refine ⟨_, rfl, ?_⟩
  rw [ParseState.upcoming_eq_cons (s := s) (by simp [hk]), Node.unplaced, Node.unplacedAll_eq_map]
  exact .array hk hn

/-- The operand that a rule reads is an operand that may have more suffixes, or one with a prefix
operator. -/
theorem Found.growing {s s' : ParseState} {result : Option Node} (p : Precedence)
    (h : Found (Derives .primary) s result s') : Found (Growing p) s result s' := by
  obtain ⟨n, hn, hd⟩ := h
  exact ⟨n, hn, Or.inl (.primary hd)⟩

include he hst in
theorem soundAt_operandRule {s : ParseState} {rule : Parse (Option Node)} (p : Precedence)
    (h : operandRule? expression statement s.token.kind = some rule) :
    SoundAt s (Found (Growing p) s) rule := by
  cases hk : s.token.kind <;> rw [hk] at h <;> cases h
  case bang => exact soundAt_unary he p (by rw [hk]; rfl)
  case minus => exact soundAt_unary he p (by rw [hk]; rfl)
  case identifier => exact (soundAt_identifier hk).imp fun _ _ => Found.growing p
  case integer => exact (soundAt_integer hk).imp fun _ _ => Found.growing p
  case trueWord => exact (soundAt_boolean (Or.inl hk)).imp fun _ _ => Found.growing p
  case falseWord => exact (soundAt_boolean (Or.inr hk)).imp fun _ _ => Found.growing p
  case leftParen => exact (soundAt_grouped he hk).imp fun _ _ => Found.growing p
  case ifWord => exact (soundAt_conditional he hst hk).imp fun _ _ => Found.growing p
  case funcWord => exact (soundAt_functionLiteral hst hk).imp fun _ _ => Found.growing p
  case leftBracket => exact (soundAt_arrayLiteral he hk).imp fun _ _ => Found.growing p

/-! ### Going on from an operand -/

/-- From an expression that was read before the state, a longer one is read. -/
def Extends (before after : List Token → List Token → Node → Prop) (left : Option Node)
    (us : List Token) (result : Option Node) (s' : ParseState) : Prop :=
  ∀ n ∈ left, ∀ ts, before ts us n.unplaced →
    ∃ m, result = some m ∧ after ts s'.next.upcoming m.unplaced

include he in
theorem soundAt_binary {s : ParseState} {p : Precedence} (left : Option Node)
    (hk : s.token.kind.isBinary = true) (hp : p.rank < s.token.rank) :
    SoundAt s (Extends (Growing p) (Growing p) left s.upcoming) (binary expression left) := by
  refine SoundAt.current (SoundAt.advance ?_)
  refine (he _ _).bind fun right s₁ _ => SoundAt.pure ?_
  rintro ⟨r, rfl, hr⟩ n ⟨⟩ ts hn
  rw [ParseState.upcoming_eq_cons (by intro h; simp [h, Kind.isBinary] at hk)] at hn
  exact ⟨_, rfl, hn.grown.binary hk hp hr⟩

include he in
theorem soundAt_call {s : ParseState} {p : Precedence} (left : Option Node)
    (hk : s.token.kind = .leftParen) :
    SoundAt s (Extends (Growing p) (Growing p) left s.upcoming) (call expression left) := by
  refine (soundAt_expressionList he (by decide) s).bind fun arguments s₁ _ => ?_
  refine SoundAt.current (SoundAt.pure ?_)
  rintro ⟨nodes, rfl, ha⟩ n ⟨⟩ ts hn
  have hs := hn.suffixed (Or.inl (by rw [ParseState.leading_upcoming, hk]))
  rw [ParseState.upcoming_eq_cons (by simp [hk])] at hs
  refine ⟨_, rfl, Or.inl ?_⟩
  rw [Node.unplaced, Node.unplacedAll_eq_map]
  exact .call hs hk ha

include he in
theorem soundAt_index {s : ParseState} {p : Precedence} (left : Option Node)
    (hk : s.token.kind = .leftBracket) :
    SoundAt s (Extends (Growing p) (Growing p) left s.upcoming) (index expression left) := by
  refine SoundAt.advance ((he .lowest _).bind fun position s₁ _ => ?_)
  refine SoundAt.expecting fun hc => SoundAt.current (SoundAt.pure ?_)
  rintro ⟨i, rfl, hi⟩ n ⟨⟩ ts hn
  have hs := hn.suffixed (Or.inr (by rw [ParseState.leading_upcoming, hk]))
  rw [ParseState.upcoming_eq_cons (by simp [hk])] at hs
  have hi := hi.expression.1
  rw [ParseState.upcoming_eq_cons (s := s₁.next) (by simp [hc])] at hi
  exact ⟨_, rfl, Or.inl (.index hs hk hi hc)⟩

include he in
theorem soundAt_extend {s : ParseState} {p : Precedence} (left : Option Node)
    (hp : p.rank < s.token.rank) :
    SoundAt s (Extends (Growing p) (Growing p) left s.upcoming) (extend expression left) := by
  apply SoundAt.current
  split
  · next hk => exact soundAt_call he left hk
  · next hk => exact soundAt_index he left hk
  · next hc hi => exact soundAt_binary he left (Kind.isBinary_of_lt_rank hp hc hi) hp

/-- The loop of an expression ends where no operator follows that binds tighter. -/
theorem Growing.extends_self {s : ParseState} {p : Precedence} (left : Option Node)
    (h : s.next.token.rank ≤ p.rank) :
    Extends (Growing p) (Bounded p) left s.next.upcoming left s := by
  rintro n ⟨⟩ ts hn
  refine ⟨n, rfl, hn.grown.bounded ?_⟩
  rw [ParseState.leading_upcoming]
  exact h

include he in
theorem soundAt_extendWhile {p : Precedence} {rounds : Nat} {s : ParseState} (left : Option Node)
    (hr : s.stream.pending.length ≤ rounds) :
    SoundAt s (Extends (Growing p) (Bounded p) left s.next.upcoming)
      (extendWhile expression p rounds left) := by
  induction rounds generalizing s left with
  | zero =>
      refine SoundAt.pure (Growing.extends_self left ?_)
      have hp : s.stream.pending = [] := List.length_eq_zero_iff.mp (Nat.le_zero.mp hr)
      have hk : s.next.token.kind = .endOfInput :=
        ParseState.kind_of_upcoming_nil (by simp [ParseState.upcoming, hp])
      rw [Token.rank, hk]
      exact p.rank_pos
  | succ rounds ih =>
      refine SoundAt.peek (SoundAt.ite (fun hp => ?_) fun hp => ?_)
      · refine SoundAt.advance ((soundAt_extend he left hp).bind fun extended s₁ hf => ?_)
        -- The round takes up a token at least, so the rounds that are left are enough.
        have hk : s.next.token.kind ≠ .endOfInput := by
          intro hk
          rw [hk] at hp
          exact absurd p.rank_pos (Nat.not_le.mpr hp)
        have hpos : 0 < s.next.stream.pending.length :=
          List.length_pos_of_mem (token_mem_pending hk)
        have hlen := hf.length_pending_le
        simp only [ParseState.next_pending, List.length_tail] at hpos hlen
        apply (ih extended (by omega)).imp
        intro result s₂ hrest hext n hn ts hg
        obtain ⟨m, hm, hgm⟩ := hext n hn ts hg
        exact hrest m hm ts hgm
      · exact SoundAt.pure (Growing.extends_self left (Nat.le_of_not_lt hp))

include he hst in
theorem soundAt_expressionBy (p : Precedence) (s : ParseState) :
    SoundAt s (Found (Bounded p) s) (expressionBy expression statement p) := by
  apply SoundAt.current
  split
  · exact fun _ => ⟨Follows.noting s _ _, fun hd => by simp at hd⟩
  · next rule hrule =>
      refine (soundAt_operandRule he hst p hrule).bind fun operand s₁ _ => SoundAt.remaining ?_
      apply (soundAt_extendWhile he operand (Nat.le_refl _)).imp
      rintro result s₂ hext ⟨n, rfl, hn⟩
      exact hext n rfl _ hn

/-! ### Statements -/

theorem statement_of_unended {ts us : List Token} {n : Node} (h : Derives .unended ts us n)
    (hk : (leading us).precedence? = none) : Derives .statement ts us n := by
  refine .unended h ?_
  intro hm
  simp only [List.mem_cons, List.not_mem_nil, or_false] at hm
  rcases hm with hm | hm | hm <;> simp [hm, Kind.precedence?] at hk

/-- The end of a statement: the semicolon is passed over if there is one. -/
theorem soundAt_end {s s₀ : ParseState} {start : Token} {value : Option Node}
    {make : Node → Span → Node}
    (h : ∀ us v span, Bounded .lowest s.upcoming us v.unplaced →
      Derives .unended s₀.upcoming us (make v span).unplaced) {s₁ : ParseState} :
    SoundAt s₁ (fun result s' => Found (Bounded .lowest) s value s₁ →
        Found (Derives .statement) s₀ result s')
      (do
        skipSemicolon
        let span ← spanFrom start
        return value.map fun v => make v span) := by
  refine SoundAt.skipSemicolon (fun hk => ?_) (fun _ => ?_)
  · refine SoundAt.spanFrom fun span => SoundAt.pure ?_
    rintro ⟨v, rfl, hv⟩
    have hd := h _ v span hv
    rw [ParseState.upcoming_eq_cons (s := s₁.next) (by simp [hk])] at hd
    exact ⟨_, rfl, .ended hd hk⟩
  · refine SoundAt.spanFrom fun span => SoundAt.pure ?_
    rintro ⟨v, rfl, hv⟩
    exact ⟨_, rfl, statement_of_unended (h _ v span hv) hv.expression.2⟩

include he in
theorem soundAt_letStatement {s : ParseState} (hk : s.token.kind = .letWord) :
    SoundAt s (Found (Derives .statement) s) (letStatement expression) := by
  refine SoundAt.current (SoundAt.expecting fun hn => SoundAt.currentName ?_)
  refine SoundAt.expecting fun ha => SoundAt.advance ?_
  refine (he .lowest _).bind fun value s₁ _ => soundAt_end fun us v span hv => ?_
  rw [ParseState.upcoming_eq_cons (s := s) (by simp [hk]),
    ParseState.upcoming_eq_cons (s := s.next) (by simp [hn]),
    ParseState.upcoming_eq_cons (s := s.next.next) (by simp [ha])]
  exact .letBinding hk hn ha hv.expression.1

include he in
theorem soundAt_returnStatement {s : ParseState} (hk : s.token.kind = .returnWord) :
    SoundAt s (Found (Derives .statement) s) (returnStatement expression) := by
  refine SoundAt.current (SoundAt.advance ?_)
  refine (he .lowest _).bind fun value s₁ _ => soundAt_end fun us v span hv => ?_
  rw [ParseState.upcoming_eq_cons (s := s) (by simp [hk])]
  exact .returning hk hv.expression.1

include he in
theorem soundAt_expressionStatement (s : ParseState) :
    SoundAt s (Found (Derives .statement) s) (expressionStatement expression) := by
  apply SoundAt.current
  refine (he .lowest _).bind fun value s₁ _ => soundAt_end fun us v span hv => ?_
  exact .evaluated hv.expression.1

include he in
theorem soundAt_statementBy (s : ParseState) :
    SoundAt s (Found (Derives .statement) s) (statementBy expression) := by
  apply SoundAt.current
  split
  · next hk => exact soundAt_letStatement he hk
  · next hk => exact soundAt_returnStatement he hk
  · exact soundAt_expressionStatement he s

end Rules

/-! ### Nesting -/

/-- Expressions and statements of every depth are derived if they add no diagnostic. -/
theorem soundAt_readers (depth : Nat) :
    (∀ p s, SoundAt s (Found (Bounded p) s) (expression depth p)) ∧
      ∀ s, SoundAt s (Found (Derives .statement) s) (statement depth) := by
  induction depth with
  | zero => exact ⟨fun _ _ _ => True.intro, fun _ _ => True.intro⟩
  | succ depth ih =>
      refine ⟨fun p s => ?_, fun s => ?_⟩
      · rw [expression]; exact soundAt_expressionBy ih.1 ih.2 p s
      · rw [statement]; exact soundAt_statementBy ih.1 s

/-- Statements that are read up to the end of the input without a diagnostic are a program. -/
theorem soundAt_programStatements {depth rounds : Nat} {s : ParseState}
    (hr : s.stream.pending.length ≤ rounds) :
    SoundAt s (fun nodes _ => Program s.upcoming (nodes.map Node.unplaced))
      (programStatements (statement depth) rounds) := by
  induction rounds generalizing s with
  | zero =>
      have hp : s.stream.pending = [] := List.length_eq_zero_iff.mp (Nat.le_zero.mp hr)
      apply SoundAt.pure
      rw [ParseState.upcoming, hp]
      exact .noStatement
  | succ rounds ih =>
      intro hs
      by_cases hk : s.token.kind = .endOfInput
      · simp only [programStatements, ends_bind, ends_current, ends_ite, hk, if_true, ends_pure]
        refine ⟨Follows.refl s, fun _ => ?_⟩
        rw [hs.upcoming_eq_nil hk]
        exact .noStatement
      · have hpos : 0 < s.stream.pending.length := List.length_pos_of_mem (token_mem_pending hk)
        rw [ends_programStatements_succ _ _ hk]
        refine (((soundAt_readers depth).2 s hs).and (orderly_statement depth s)).mono ?_ ?_
        · rintro next s₁ ⟨⟨hf, hn⟩, -⟩
          have hf₁ : Follows s s₁.next := hf.trans (Follows.next s₁)
          have hlen := hf.length_pending_le
          apply Ends.imp (ih (by simp; omega) (hs.of_follows hf₁))
          rintro rest s₂ ⟨hf₂, hrest⟩
          refine ⟨hf₁.trans hf₂, fun hd => ?_⟩
          have hd₁ : s₁.diagnostics = s.diagnostics := hf₁.diagnostics_eq hf₂ hd
          obtain ⟨n, rfl, hm⟩ := hn hd₁
          exact .statements hm (hrest (hd.trans hd₁.symm))
        · rintro fault s₁ ⟨-, hf, -⟩
          -- A statement that is cut off leaves a diagnostic, so nothing is claimed of it.
          split
          · refine ⟨hf.trans (Follows.noting s₁ _ _), fun hd => ?_⟩
            have hlen := hf.length_diagnostics_le
            simp only [← hd, ParseState.noting_diagnostics, List.length_append,
              List.length_singleton] at hlen
            omega
          · exact True.intro

/-- What is read of a program without a diagnostic is what the grammar derives. -/
theorem program_of_parsed {depth : Nat} {program : String} {parsed : Parsed}
    (h : parseWithin depth program = .ok parsed) (hd : parsed.diagnostics = []) :
    ∃ ns, Program ((Token.ofProgram program).map Token.unplaced) ns := by
  have hs : ParseState.Scanned { stream := TokenStream.ofProgram program } :=
    fun t ht => Token.scanned_ofProgram ht
  obtain ⟨nodes, span, s, -, hds, -, hn⟩ :=
    TokenStream.parseWithin_ends (soundAt_programStatements (Nat.le_refl _) hs) h
  exact ⟨_, hn (hds.symm.trans hd)⟩

end Grammar

end ExprLang
