import ExprLang.Proofs.Grammar.Climbing

/-!
# What the grammar derives is read

Where the tokens from the current one on start with a phrase, the reader of that phrase comes to its
end without a diagnostic and with the tree of the derivation, whatever follows the phrase, unless
the nesting limit is reached.

## Implementation notes

`Reads` states this for every form of phrase, with what may follow it, and there is one lemma for
each rule of the grammar. The proof is then by induction on the derivation.
-/

namespace ExprLang

namespace Grammar

open Parse

/-! ### Phrases -/

/-- A statement is followed by another one, by a closing brace or by the end of the input. -/
def Resumes (k : Kind) : Prop :=
  startsStatement k = true ∨ k = .rightBrace ∨ k = .endOfInput

theorem Resumes.stops {k : Kind} (h : Resumes k)
    (hk : k ∉ [.leftParen, .leftBracket, .minus]) : Stops k := by
  unfold Resumes at h
  revert h hk
  cases k <;> simp [startsStatement, startsOperand, Stops, Kind.precedence?]

theorem Resumes.ne_semicolon {k : Kind} (h : Resumes k) : k ≠ .semicolon := by
  rintro rfl
  simp [Resumes, startsStatement, startsOperand] at h

/-- The reader of a phrase ends behind it with its tree. -/
def Reads : (n : Phrase) → List Token → List Token → n.Tree → Prop
  | .statements, ts, us, ns => leading us = .rightBrace ∨ us = [] →
      ∀ depth rounds s ds, Stands ts ds s → s.stream.pending.length ≤ rounds →
        Ends (blockStatements (statement depth) rounds) s
          (fun nodes s' => nodes.map Node.unplaced = ns ∧ Stands us ds s') anyFault
  | .statement, ts, us, n => ∀ depth s ds, Stands ts ds s → Resumes (leading us) →
      Ends (statement depth) s (Yields n us ds) anyFault
  | .unended, ts, us, n => ∀ depth s ds, Stands ts ds s → Stops (leading us) →
      Ends (statement depth) s
        (Yields n (if leading us = .semicolon then us.tail else us) ds) anyFault
  | .block, ts, us, b => ∀ depth s ds, Stands ts ds s →
      Ends (block (statement depth)) s
        (fun n s' => n.unplaced = b ∧ Stands us ds s'.next) anyFault
  | .expression, ts, us, e => ∀ depth s ds, Stands ts ds s → Stops (leading us) →
      Ends (expression depth .lowest) s (Yields e us ds) anyFault
  | .chain, ts, us, rest => ChainRead ts us rest
  | .operand, ts, us, e => OperandRead Complete ts us e
  | .suffixed, ts, us, e => OperandRead (· ≠ .elseWord) ts us e
  | .primary, ts, us, e => ∀ depth s ds, Stands ts ds s → leading us ≠ .elseWord →
      ∃ rule, operandRule? (expression depth) (statement depth) s.token.kind = some rule ∧
        Ends rule s (Yields e us ds) anyFault
  | .list closing, ts, us, es => closing = .rightParen ∨ closing = .rightBracket →
      ∀ depth s ds, Stands ts ds s.next →
        Ends (expressionList (expression depth) closing) s
          (fun result s' => (∃ nodes, result = some nodes ∧ nodes.map Node.unplaced = es) ∧
            Stands us ds s'.next) anyFault
  | .more, ts, us, es => Stops (leading us) → leading us ≠ .comma →
      ∀ depth rounds s ds, Stands ts ds s.next → s.stream.pending.length ≤ rounds →
        Ends (moreExpressions (expression depth) rounds) s
          (fun results s' =>
            (∃ nodes : List Node, results = nodes.map some ∧ nodes.map Node.unplaced = es) ∧
              Stands us ds s'.next) anyFault
  | .parameters, ts, us, names => ∀ s ds, Stands ts ds s.next →
      Ends parameters s
        (fun result s' => (∃ names', result = some names' ∧ names'.map Name.unplaced = names) ∧
          Stands us ds s'.next) anyFault
  | .moreParameters, ts, us, names => leading us ≠ .comma →
      ∀ rounds s ds, Stands ts ds s.next → s.stream.pending.length ≤ rounds →
        Ends (moreParameters rounds) s
          (fun result s' => (∃ names', result = some names' ∧ names'.map Name.unplaced = names) ∧
            Stands us ds s'.next) anyFault

/-! ### Operands -/

section Operands

variable {ts us vs : List Token} {e : Node}

theorem reads_identifier {t : Token} (hk : t.kind = .identifier) :
    Reads .primary (t :: ts) ts (.identifier t.text Span.nowhere) := by
  intro depth s ds hs _
  refine ⟨identifier, by rw [hs.kind, leading_cons, hk]; rfl, ?_⟩
  simp only [identifier, ends_bind, ends_current, ends_pure]
  exact ⟨⟨_, rfl, by simp [Node.unplaced, hs.text]⟩, hs.next⟩

theorem reads_integer {t : Token} (hk : t.kind = .integer) (ht : Text.isNumeral t.text = true)
    (hv : Text.decimal t.text ≤ 9223372036854775807) :
    Reads .primary (t :: ts) ts (.integer (Text.decimal t.text) Span.nowhere) := by
  intro depth s ds hs _
  refine ⟨integer, by rw [hs.kind, leading_cons, hk]; rfl, ?_⟩
  simp only [integer, ends_bind, ends_current, hs.text]
  cases hr : Text.readInt t.text with
  | error reason => exact True.intro
  | ok value =>
      obtain rfl := Text.eq_decimal_of_readInt ht hr
      have hle : ¬ maxInteger < (Text.decimal t.text : Int) := by
        simp only [maxInteger]
        omega
      simp only [hle, if_false, ends_pure]
      exact ⟨⟨_, rfl, rfl⟩, hs.next⟩

theorem reads_boolean {t : Token} (hk : t.kind = .trueWord ∨ t.kind = .falseWord) :
    Reads .primary (t :: ts) ts (.boolean (t.kind == .trueWord) Span.nowhere) := by
  intro depth s ds hs _
  refine ⟨boolean, ?_, ?_⟩
  · rw [hs.kind, leading_cons]
    rcases hk with hk | hk <;> rw [hk] <;> rfl
  · simp only [boolean, ends_bind, ends_current, ends_pure, hs.kind, leading_cons]
    exact ⟨⟨_, rfl, rfl⟩, hs.next⟩

theorem reads_grouped {opening closing : Token} (ho : opening.kind = .leftParen)
    (he : Reads .expression ts (closing :: us) e) (hc : closing.kind = .rightParen) :
    Reads .primary (opening :: ts) us e := by
  intro depth s ds hs _
  refine ⟨grouped (expression depth), by rw [hs.kind, leading_cons, ho]; rfl, ?_⟩
  simp only [grouped, ends_bind, ends_advance]
  refine (he depth s.next ds hs.next (by simp [hc, Stops, Kind.precedence?])).imp ?_
  rintro _ s' ⟨⟨n, rfl, hn⟩, hs'⟩
  rw [ends_expecting, if_pos (by rw [hs'.kind, leading_cons, hc]), ends_pure]
  exact ⟨⟨n, rfl, hn⟩, hs'.next⟩

theorem reads_array {opening : Token} {elements : List Node} (ho : opening.kind = .leftBracket)
    (he : Reads (.list .rightBracket) ts us elements) :
    Reads .primary (opening :: ts) us (.array elements Span.nowhere) := by
  intro depth s ds hs _
  refine ⟨arrayLiteral (expression depth), by rw [hs.kind, leading_cons, ho]; rfl, ?_⟩
  simp only [arrayLiteral, ends_bind, ends_current, ends_spanFrom, ends_pure]
  apply (he (Or.inr rfl) depth s ds hs.next).imp
  rintro _ s' ⟨⟨nodes, rfl, hn⟩, hs'⟩
  exact ⟨⟨_, rfl, by simp [Node.unplaced, Node.unplacedAll_eq_map, hn]⟩, hs'⟩

theorem reads_ifThen {word opening closing : Token} {condition consequence : Node}
    (hw : word.kind = .ifWord) (ho : opening.kind = .leftParen)
    (hc : Reads .expression ts (closing :: us) condition) (hk : closing.kind = .rightParen)
    (hb : leading us = .leftBrace) (ht : Reads .block us vs consequence) :
    Reads .primary (word :: opening :: ts) vs (.ifThen condition consequence Span.nowhere) := by
  intro depth s ds hs hf
  refine ⟨conditional (expression depth) (statement depth),
    by rw [hs.kind, leading_cons, hw]; rfl, ?_⟩
  simp only [conditional, ends_bind, ends_current]
  rw [ends_expecting, if_pos (by rw [hs.next.kind, leading_cons, ho])]
  simp only [ends_bind, ends_advance]
  refine (hc depth _ ds hs.next.next (by simp [hk, Stops, Kind.precedence?])).imp ?_
  rintro _ s₁ ⟨⟨c, rfl, hcond⟩, hs₁⟩
  rw [ends_expecting, if_pos (by rw [hs₁.kind, leading_cons, hk])]
  rw [ends_expecting, if_pos (by rw [hs₁.next.kind, hb]), ends_bind]
  apply (ht depth _ ds hs₁.next).imp
  rintro b s₂ ⟨hcons, hs₂⟩
  have hne : ¬ s₂.next.token.kind = .elseWord := by rw [hs₂.kind]; exact hf
  simp only [ends_bind, ends_peek, ends_ite, hne, if_false, ends_spanFrom, ends_pure]
  exact ⟨⟨_, rfl, by simp [Node.unplaced, hcond, hcons]⟩, hs₂⟩

theorem reads_ifElse {word opening closing otherwise : Token} {ws : List Token}
    {condition consequence alternative : Node}
    (hw : word.kind = .ifWord) (ho : opening.kind = .leftParen)
    (hc : Reads .expression ts (closing :: us) condition) (hk : closing.kind = .rightParen)
    (hb : leading us = .leftBrace) (ht : Reads .block us (otherwise :: vs) consequence)
    (he : otherwise.kind = .elseWord) (hb' : leading vs = .leftBrace)
    (hf : Reads .block vs ws alternative) :
    Reads .primary (word :: opening :: ts) ws
      (.ifElse condition consequence alternative Span.nowhere) := by
  intro depth s ds hs _
  refine ⟨conditional (expression depth) (statement depth),
    by rw [hs.kind, leading_cons, hw]; rfl, ?_⟩
  simp only [conditional, ends_bind, ends_current]
  rw [ends_expecting, if_pos (by rw [hs.next.kind, leading_cons, ho])]
  simp only [ends_bind, ends_advance]
  refine (hc depth _ ds hs.next.next (by simp [hk, Stops, Kind.precedence?])).imp ?_
  rintro _ s₁ ⟨⟨c, rfl, hcond⟩, hs₁⟩
  rw [ends_expecting, if_pos (by rw [hs₁.kind, leading_cons, hk])]
  rw [ends_expecting, if_pos (by rw [hs₁.next.kind, hb]), ends_bind]
  apply (ht depth _ ds hs₁.next).imp
  rintro b s₂ ⟨hcons, hs₂⟩
  have heq : s₂.next.token.kind = .elseWord := by rw [hs₂.kind, leading_cons, he]
  simp only [ends_bind, ends_peek, ends_ite, heq, if_true, ends_advance]
  rw [ends_expecting, if_pos (by rw [hs₂.next.kind, hb'])]
  simp only [ends_bind, ends_spanFrom, ends_pure]
  apply (hf depth _ ds hs₂.next).imp
  rintro b' s₃ ⟨halt, hs₃⟩
  exact ⟨⟨_, rfl, by simp [Node.unplaced, hcond, hcons, halt]⟩, hs₃⟩

theorem reads_function {word opening : Token} {names : List Name} {body : Node}
    (hw : word.kind = .funcWord) (ho : opening.kind = .leftParen)
    (hp : Reads .parameters ts us names) (hl : leading us = .leftBrace)
    (hb : Reads .block us vs body) :
    Reads .primary (word :: opening :: ts) vs (.function names body Span.nowhere) := by
  intro depth s ds hs _
  refine ⟨functionLiteral (statement depth), by rw [hs.kind, leading_cons, hw]; rfl, ?_⟩
  simp only [functionLiteral, ends_bind, ends_current]
  rw [ends_expecting, if_pos (by rw [hs.next.kind, leading_cons, ho]), ends_bind]
  apply (hp s.next ds hs.next.next).imp
  rintro _ s₁ ⟨⟨names', rfl, hn⟩, hs₁⟩
  simp only
  rw [ends_expecting, if_pos (by rw [hs₁.kind, hl])]
  simp only [ends_bind, ends_spanFrom, ends_pure]
  apply (hb depth _ ds hs₁).imp
  rintro b s₂ ⟨hbody, hs₂⟩
  exact ⟨⟨_, rfl, by simp [Node.unplaced, hn, hbody]⟩, hs₂⟩

theorem operandRead_of_primary (h : Reads .primary ts us e) :
    OperandRead (· ≠ .elseWord) ts us e := by
  intro depth p s ds onResult _ hs hf hcont
  obtain ⟨rule, hr, hend⟩ := h depth s ds hs hf
  rw [ends_expression hr]
  apply hend.imp
  rintro _ s' ⟨⟨n, rfl, hn⟩, hs'⟩
  exact hcont n s' _ hn hs' (Nat.le_refl _)

theorem operandRead_call {opening : Token} {callee : Node} {arguments : List Node}
    (hf : OperandRead (· ≠ .elseWord) ts (opening :: us) callee) (ho : opening.kind = .leftParen)
    (ha : Reads (.list .rightParen) us vs arguments) :
    OperandRead (· ≠ .elseWord) ts vs (.call callee arguments Span.nowhere) := by
  intro depth p s ds onResult hp hs _ hcont
  apply hf depth p s ds onResult hp hs (by simp [ho])
  intro n s' rounds hn hs' hr
  have hk : s'.next.token.kind = .leftParen := by rw [hs'.kind, leading_cons, ho]
  apply extendWhile_step (by rw [hk]; exact Nat.lt_of_le_of_lt hp (by decide)) hr
  rw [ends_extend_call hk]
  simp only [call, ends_bind, ends_current, ends_pure]
  apply (ha (Or.inl rfl) depth s'.next ds hs'.next).imp
  rintro _ s₁ ⟨⟨nodes, rfl, hnodes⟩, hs₁⟩ rounds hr
  exact hcont _ s₁ rounds (by simp [Node.unplaced, Node.unplacedAll_eq_map, hn, hnodes]) hs₁ hr

theorem operandRead_index {opening closing : Token} {collection position : Node}
    (hl : OperandRead (· ≠ .elseWord) ts (opening :: us) collection)
    (ho : opening.kind = .leftBracket) (hi : Reads .expression us (closing :: vs) position)
    (hc : closing.kind = .rightBracket) :
    OperandRead (· ≠ .elseWord) ts vs (.index collection position Span.nowhere) := by
  intro depth p s ds onResult hp hs _ hcont
  apply hl depth p s ds onResult hp hs (by simp [ho])
  intro n s' rounds hn hs' hr
  have hk : s'.next.token.kind = .leftBracket := by rw [hs'.kind, leading_cons, ho]
  apply extendWhile_step (by rw [hk]; exact Nat.lt_of_le_of_lt hp (by decide)) hr
  rw [ends_extend_index hk]
  simp only [index, ends_bind, ends_advance]
  refine (hi depth _ ds hs'.next (by simp [hc, Stops, Kind.precedence?])).imp ?_
  rintro _ s₁ ⟨⟨i, rfl, hpos⟩, hs₁⟩
  rw [ends_expecting, if_pos (by rw [hs₁.kind, leading_cons, hc])]
  simp only [ends_bind, ends_current, ends_pure]
  intro rounds hr
  exact hcont _ _ rounds (by simp [Node.unplaced, hn, hpos]) hs₁.next hr

theorem operandRead_unary {operator : Token} (hk : operator.kind.isUnary = true)
    (ho : OperandRead Complete ts us e) :
    OperandRead Complete (operator :: ts) us (.unary operator e Span.nowhere) := by
  intro depth p s ds onResult _ hs hf hcont
  have hrule : operandRule? (expression depth) (statement depth) s.token.kind =
      some (unary (expression depth)) := by
    rw [hs.kind, leading_cons]
    revert hk
    cases operator.kind <;> simp [Kind.isUnary, operandRule?]
  rw [ends_expression hrule]
  simp only [unary, ends_bind, ends_current, ends_advance, ends_spanFrom, ends_pure]
  cases depth with
  | zero => exact True.intro
  | succ depth =>
      apply ho depth .unary s.next ds _ (by decide) hs.next hf
      intro n s' rounds hn hs' _
      apply extendWhile_stop (by rw [hs'.kind]; exact hf.rank_le)
      exact hcont _ s' _ (by simp [Node.unplaced, hs.token, hn]) hs' (Nat.le_refl _)

theorem reads_expression {first : Node} {rest : List (Token × Node)}
    (hf : OperandRead Complete ts us first) (hr : ChainRead us vs rest)
    (hg : Grouped Token.rank first rest e) : Reads .expression ts vs e := by
  intro depth s ds hs hstop
  cases depth with
  | zero => exact True.intro
  | succ depth =>
      apply hf depth .lowest s ds _ (by decide) hs (hr.complete_leading hstop)
      intro n s' rounds hn hs' hrounds
      apply (hr.taken hstop hs' hrounds).imp
      rintro result s'' ⟨taken, left, e', ws, hrest, -, hleft, hc, hg', hy⟩
      rw [hn] at hg'
      -- Every operator binds tighter than the lowest precedence, so that none is left.
      cases hc with
      | nil =>
          rw [List.append_nil] at hrest
          subst hrest
          rw [hg.unique hg']
          exact hy
      | @cons operator _ _ _ _ _ hk _ _ =>
          have hle : operator.rank ≤ 1 := hleft _ rfl
          have hge : 2 ≤ operator.rank := (Kind.rank_of_isBinary hk).1
          omega

end Operands

/-! ### Lists -/

section Lists

variable {ts us vs : List Token} {e : Node} {es : List Node} {names : List Name}

/-- Behind an expression of a list stands a comma or what follows the list. -/
theorem stops_of_more (h : us = vs ∨ leading us = .comma) (hv : Stops (leading vs)) :
    Stops (leading us) := by
  rcases h with rfl | h
  · exact hv
  · rw [h]
    exact ⟨rfl, by simp⟩

theorem reads_emptyList {closing : Token} {k : Kind} (hc : closing.kind = k) :
    Reads (.list k) (closing :: ts) ts [] := by
  intro _ depth s ds hs
  have hk : s.next.token.kind = k := by rw [hs.kind, leading_cons, hc]
  simp only [expressionList, ends_bind, ends_peek, ends_ite, hk, if_true, ends_advance, ends_pure]
  exact ⟨⟨[], rfl, rfl⟩, hs.next⟩

theorem reads_list {closing : Token} {k : Kind} (hstart : startsOperand (leading ts) = true)
    (he : Reads .expression ts us e) (hsep : us = closing :: vs ∨ leading us = .comma)
    (hm : Reads .more us (closing :: vs) es) (hc : closing.kind = k) :
    Reads (.list k) ts vs (e :: es) := by
  intro hk depth s ds hs
  have hne : ¬ s.next.token.kind = k := by
    rw [hs.kind]
    intro h
    rw [h] at hstart
    rcases hk with rfl | rfl <;> simp [startsOperand] at hstart
  have hclose : Stops closing.kind ∧ closing.kind ≠ .comma := by
    rcases hk with rfl | rfl <;> rw [hc] <;> exact ⟨⟨rfl, by simp⟩, by simp⟩
  simp only [expressionList, ends_bind, ends_peek, ends_ite, hne, if_false, ends_advance]
  apply (he depth s.next ds hs (stops_of_more hsep hclose.1)).imp
  rintro _ s₁ ⟨⟨n, rfl, hn⟩, hs₁⟩
  simp only [ends_remaining]
  apply (hm hclose.1 hclose.2 depth _ s₁ ds hs₁ (Nat.le_refl _)).imp
  rintro _ s₂ ⟨⟨nodes, rfl, hnodes⟩, hs₂⟩
  rw [ends_expecting, if_pos (by rw [hs₂.kind, leading_cons, hc]), ends_pure]
  refine ⟨⟨n :: nodes, ?_, by simp [hn, hnodes]⟩, hs₂.next⟩
  exact allPresent_map_some (n :: nodes)

theorem reads_noMore : Reads .more ts ts [] := by
  intro _ hne depth rounds s ds hs _
  have hk : ¬ s.next.token.kind = .comma := by rw [hs.kind]; exact hne
  have hend : (∃ nodes : List Node, ([] : List (Option Node)) = nodes.map some ∧
      nodes.map Node.unplaced = []) ∧ Stands ts ds s.next := ⟨⟨[], rfl, rfl⟩, hs⟩
  cases rounds with
  | zero => exact hend
  | succ rounds =>
      simp only [moreExpressions, ends_bind, ends_peek, ends_ite, hk, if_false, ends_pure]
      exact hend

/-- A loop over the tokens that are left has a round to go while a token is to come. -/
theorem rounds_pos {t : Token} {ds : List Diagnostic} {s : ParseState} {rounds : Nat}
    (hs : Stands (t :: ts) ds s) (hr : s.stream.pending.length ≤ rounds) :
    ∃ rest, rounds = rest + 1 := by
  have hl := s.length_upcoming
  rw [hs.upcoming, List.length_cons] at hl
  exact ⟨rounds - 1, by omega⟩

theorem reads_more {comma : Token} (hk : comma.kind = .comma) (he : Reads .expression ts us e)
    (hsep : us = vs ∨ leading us = .comma) (hm : Reads .more us vs es) :
    Reads .more (comma :: ts) vs (e :: es) := by
  intro hv hne depth rounds s ds hs hr
  obtain ⟨rounds, rfl⟩ := rounds_pos hs (Nat.le_trans (by simp) hr)
  have hc : s.next.token.kind = .comma := by rw [hs.kind, leading_cons, hk]
  simp only [moreExpressions, ends_bind, ends_peek, ends_ite, hc, if_true, ends_advance]
  have ho := orderly_expression depth .lowest s.next.next
  refine ((he depth _ ds hs.next (stops_of_more hsep hv)).and ho).mono ?_
    (fun _ _ _ => True.intro)
  rintro _ s₁ ⟨⟨⟨n, rfl, hn⟩, hs₁⟩, hf, -⟩
  have hlen := hf.length_pending_le
  simp only [ParseState.next_pending, List.length_tail] at hlen
  apply (hm hv hne depth rounds s₁ ds hs₁ (by omega)).imp
  rintro _ s₂ ⟨⟨nodes, rfl, hnodes⟩, hs₂⟩
  exact ⟨⟨n :: nodes, rfl, by simp [hn, hnodes]⟩, hs₂⟩

theorem reads_noParameters {closing : Token} (hc : closing.kind = .rightParen) :
    Reads .parameters (closing :: ts) ts [] := by
  intro s ds hs
  have hk : s.next.token.kind = .rightParen := by rw [hs.kind, leading_cons, hc]
  simp only [parameters, ends_bind, ends_peek, ends_ite, hk, if_true, ends_advance, ends_pure]
  exact ⟨⟨[], rfl, rfl⟩, hs.next⟩

theorem reads_parameters {name closing : Token} (hn : name.kind = .identifier)
    (hm : Reads .moreParameters ts (closing :: us) names) (hc : closing.kind = .rightParen) :
    Reads .parameters (name :: ts) us (nameOf name :: names) := by
  intro s ds hs
  have hk : s.next.token.kind = .identifier := by rw [hs.kind, leading_cons, hn]
  have hne : ¬ s.next.token.kind = .rightParen := by simp [hk]
  simp only [parameters, ends_bind, ends_peek, ends_ite, hne, if_false]
  rw [ends_expecting, if_pos hk]
  simp only [ends_bind, ends_currentName, ends_remaining]
  apply (hm (by simp [hc]) _ _ ds hs.next (Nat.le_refl _)).imp
  rintro _ s₁ ⟨⟨names', rfl, hnames⟩, hs₁⟩
  simp only
  rw [ends_expecting, if_pos (by rw [hs₁.kind, leading_cons, hc]), ends_pure]
  exact ⟨⟨_, rfl, by simp [Name.unplaced, nameOf, hs.text, hnames]⟩, hs₁.next⟩

theorem reads_noMoreParameters : Reads .moreParameters ts ts [] := by
  intro hne rounds s ds hs _
  have hk : ¬ s.next.token.kind = .comma := by rw [hs.kind]; exact hne
  have hend : (∃ names : List Name, some ([] : List Name) = some names ∧
      names.map Name.unplaced = []) ∧ Stands ts ds s.next := ⟨⟨[], rfl, rfl⟩, hs⟩
  cases rounds with
  | zero => exact hend
  | succ rounds =>
      simp only [moreParameters, ends_bind, ends_peek, ends_ite, hk, if_false, ends_pure]
      exact hend

theorem reads_moreParameters {comma name : Token} (hk : comma.kind = .comma)
    (hn : name.kind = .identifier) (hm : Reads .moreParameters ts us names) :
    Reads .moreParameters (comma :: name :: ts) us (nameOf name :: names) := by
  intro hne rounds s ds hs hr
  obtain ⟨rounds, rfl⟩ := rounds_pos hs (Nat.le_trans (by simp) hr)
  have hc : s.next.token.kind = .comma := by rw [hs.kind, leading_cons, hk]
  simp only [moreParameters, ends_bind, ends_peek, ends_ite, hc, if_true, ends_advance]
  rw [ends_expecting, if_pos (by rw [hs.next.kind, leading_cons, hn])]
  simp only [ends_bind, ends_currentName, ends_pure]
  apply (hm hne rounds _ ds hs.next.next (by simp; omega)).imp
  rintro _ s₁ ⟨⟨names', rfl, hnames⟩, hs₁⟩
  exact ⟨⟨_, rfl, by simp [Name.unplaced, nameOf, hs.next.text, hnames]⟩, hs₁⟩

end Lists

/-! ### Statements -/

section Statements

variable {ts us vs : List Token} {n : Node} {ns : List Node}

/-- Behind the value of a statement a semicolon is passed over. -/
theorem ends_semicolon {ds : List Diagnostic} {s : ParseState} {onResult : ParseState → Prop}
    (hs : Stands us ds s.next)
    (h : ∀ s', Stands (if leading us = .semicolon then us.tail else us) ds s'.next →
      onResult s') :
    onResult (if s.next.token.kind = .semicolon then s.next else s) := by
  rw [hs.kind]
  by_cases hk : leading us = .semicolon
  · rw [if_pos hk]
    apply h s.next
    rw [if_pos hk]
    exact ⟨by simp [← hs.upcoming], hs.diagnostics⟩
  · rw [if_neg hk]
    apply h s
    rw [if_neg hk]
    exact hs

theorem reads_letBinding {word name assign : Token} (hw : word.kind = .letWord)
    (hn : name.kind = .identifier) (ha : assign.kind = .assign)
    (hv : Reads .expression ts us n) :
    Reads .unended (word :: name :: assign :: ts) us
      (.letBinding (nameOf name) n Span.nowhere) := by
  intro depth s ds hs hstop
  cases depth with
  | zero => exact True.intro
  | succ depth =>
      have hk : s.token.kind = .letWord := by rw [hs.kind, leading_cons, hw]
      simp only [statement, statementBy, ends_bind, ends_current, hk, letStatement]
      rw [ends_expecting, if_pos (by rw [hs.next.kind, leading_cons, hn])]
      simp only [ends_bind, ends_currentName]
      rw [ends_expecting, if_pos (by rw [hs.next.next.kind, leading_cons, ha])]
      simp only [ends_bind, ends_advance, ends_skipSemicolon, ends_spanFrom, ends_pure]
      apply (hv depth _ ds hs.next.next.next hstop).imp
      rintro _ s₁ ⟨⟨value, rfl, hvalue⟩, hs₁⟩
      refine ends_semicolon hs₁ fun s' hs' => ⟨⟨_, rfl, ?_⟩, hs'⟩
      simp [Node.unplaced, Name.unplaced, nameOf, hs.next.text, hvalue]

theorem reads_returning {word : Token} (hw : word.kind = .returnWord)
    (hv : Reads .expression ts us n) :
    Reads .unended (word :: ts) us (.returning n Span.nowhere) := by
  intro depth s ds hs hstop
  cases depth with
  | zero => exact True.intro
  | succ depth =>
      have hk : s.token.kind = .returnWord := by rw [hs.kind, leading_cons, hw]
      simp only [statement, statementBy, ends_bind, ends_current, hk, returnStatement,
        ends_advance, ends_skipSemicolon, ends_spanFrom, ends_pure]
      apply (hv depth _ ds hs.next hstop).imp
      rintro _ s₁ ⟨⟨value, rfl, hvalue⟩, hs₁⟩
      refine ends_semicolon hs₁ fun s' hs' => ⟨⟨_, rfl, ?_⟩, hs'⟩
      simp [Node.unplaced, hvalue]

theorem reads_evaluated (hstart : startsOperand (leading ts) = true)
    (he : Reads .expression ts us n) : Reads .unended ts us (.evaluated n Span.nowhere) := by
  intro depth s ds hs hstop
  cases depth with
  | zero => exact True.intro
  | succ depth =>
      have hlet : s.token.kind ≠ .letWord := by
        rw [hs.kind]
        intro h
        simp [h, startsOperand] at hstart
      have hret : s.token.kind ≠ .returnWord := by
        rw [hs.kind]
        intro h
        simp [h, startsOperand] at hstart
      simp only [statement, statementBy, ends_bind, ends_current, expressionStatement,
        ends_skipSemicolon, ends_spanFrom, ends_pure]
      apply (he depth s ds hs hstop).imp
      rintro _ s₁ ⟨⟨value, rfl, hvalue⟩, hs₁⟩
      refine ends_semicolon hs₁ fun s' hs' => ⟨⟨_, rfl, ?_⟩, hs'⟩
      simp [Node.unplaced, hvalue]

theorem reads_ended {semicolon : Token} (h : Reads .unended ts (semicolon :: us) n)
    (hk : semicolon.kind = .semicolon) : Reads .statement ts us n := by
  intro depth s ds hs _
  have hend := h depth s ds hs (by simp [hk, Stops, Kind.precedence?])
  simpa only [leading_cons, hk, if_true, List.tail_cons] using hend

theorem reads_unended (h : Reads .unended ts us n)
    (hf : leading us ∉ [.leftParen, .leftBracket, .minus]) : Reads .statement ts us n := by
  intro depth s ds hs hr
  have hend := h depth s ds hs (hr.stops hf)
  simpa only [hr.ne_semicolon, if_false] using hend

theorem reads_noStatement : Reads .statements ts ts [] := by
  intro hend depth rounds s ds hs _
  have hk : s.token.kind = .rightBrace ∨ s.token.kind = .endOfInput := by
    rw [hs.kind]
    rcases hend with h | h
    · exact Or.inl h
    · exact Or.inr (by simp [h])
  cases rounds with
  | zero => exact ⟨rfl, hs⟩
  | succ rounds =>
      simp only [blockStatements, ends_bind, ends_current, ends_ite, hk, if_true, ends_pure]
      exact ⟨rfl, hs⟩

/-- A statement before others is followed by one of them or by what follows them all. -/
theorem resumes_of_statements (h : us = vs ∨ startsStatement (leading us) = true)
    (hv : leading vs = .rightBrace ∨ vs = []) : Resumes (leading us) := by
  rcases h with rfl | h
  · rcases hv with hv | hv
    · exact Or.inr (Or.inl hv)
    · exact Or.inr (Or.inr (by simp [hv]))
  · exact Or.inl h

/-- Where a statement starts there is a token, neither a closing brace nor the end of the input. -/
theorem exists_of_startsStatement (h : startsStatement (leading ts) = true) :
    (∃ t rest, ts = t :: rest) ∧ leading ts ≠ .rightBrace ∧ leading ts ≠ .endOfInput := by
  cases ts with
  | nil => simp [startsStatement, startsOperand] at h
  | cons t rest =>
      refine ⟨⟨t, rest, rfl⟩, ?_, ?_⟩ <;> intro hk <;>
        simp [hk, startsStatement, startsOperand] at h

theorem reads_statements (hstart : startsStatement (leading ts) = true)
    (h : Reads .statement ts us n) (hnext : us = vs ∨ startsStatement (leading us) = true)
    (hs : Reads .statements us vs ns) : Reads .statements ts vs (n :: ns) := by
  intro hend depth rounds s ds hst hr
  obtain ⟨⟨t, rest, rfl⟩, hbrace, hinput⟩ := exists_of_startsStatement hstart
  obtain ⟨rounds, rfl⟩ := rounds_pos hst hr
  have hk : ¬ (s.token.kind = .rightBrace ∨ s.token.kind = .endOfInput) := by
    rw [hst.kind]
    exact not_or.mpr ⟨hbrace, hinput⟩
  simp only [blockStatements, ends_bind, ends_current, ends_ite, hk, if_false, ends_advance,
    ends_pure]
  have ho := orderly_statement depth s
  refine ((h depth s ds hst (resumes_of_statements hnext hend)).and ho).mono ?_
    (fun _ _ _ => True.intro)
  rintro _ s₁ ⟨⟨⟨m, rfl, hm⟩, hs₁⟩, hf, -⟩
  have hlen := hf.length_pending_le
  apply (hs hend depth rounds s₁.next ds hs₁ (by simp; omega)).imp
  rintro nodes s₂ ⟨hnodes, hs₂⟩
  exact ⟨by simp [hm, hnodes], hs₂⟩

theorem reads_closedBlock {opening closing : Token} (hs : Reads .statements ts (closing :: us) ns)
    (hc : closing.kind = .rightBrace) :
    Reads .block (opening :: ts) us (.block ns Span.nowhere) := by
  intro depth s ds hst
  simp only [block, ends_bind, ends_current, ends_advance, ends_remaining, ends_spanFrom, ends_pure]
  apply (hs (Or.inl hc) depth _ _ ds hst.next (Nat.le_refl _)).imp
  rintro nodes s₁ ⟨hnodes, hs₁⟩
  exact ⟨by simp [Node.unplaced, Node.unplacedAll_eq_map, hnodes], hs₁.next⟩

theorem reads_openBlock {opening : Token} (hs : Reads .statements ts [] ns) :
    Reads .block (opening :: ts) [] (.block ns Span.nowhere) := by
  intro depth s ds hst
  simp only [block, ends_bind, ends_current, ends_advance, ends_remaining, ends_spanFrom, ends_pure]
  apply (hs (Or.inr rfl) depth _ _ ds hst.next (Nat.le_refl _)).imp
  rintro nodes s₁ ⟨hnodes, hs₁⟩
  refine ⟨by simp [Node.unplaced, Node.unplacedAll_eq_map, hnodes], ?_⟩
  exact ⟨by simp [hs₁.upcoming], hs₁.diagnostics⟩

end Statements

/-! ### Derivations -/

theorem Derives.leading_block {ts us : List Token} {b : Node} (h : Derives .block ts us b) :
    leading ts = .leftBrace := by
  cases h with
  | closedBlock ho hs hc => exact ho
  | openBlock ho hs => exact ho

/-- Every phrase that is derived is read. -/
theorem Derives.reads {n : Phrase} {ts us : List Token} {t : n.Tree} (h : Derives n ts us t) :
    Reads n ts us t := by
  induction h with
  | noStatement => exact reads_noStatement
  | statements h hs ih ihs => exact reads_statements h.starts ih hs.starts ihs
  | ended h hk ih => exact reads_ended ih hk
  | unended h hf ih => exact reads_unended ih hf
  | letBinding hw hn ha hv ih => exact reads_letBinding hw hn ha ih
  | returning hw hv ih => exact reads_returning hw ih
  | evaluated he ih => exact reads_evaluated he.starts ih
  | closedBlock ho hs hc ih => exact reads_closedBlock ih hc
  | openBlock ho hs ih => exact reads_openBlock ih
  | expression hf hr hg ihf ihr => exact reads_expression ihf ihr hg
  | noOperator => exact .nil
  | chain hk ho hr iho ihr => exact .cons hk iho ihr
  | unary hk ho ih => exact operandRead_unary hk ih
  | suffixed h ih =>
      intro depth p s ds onResult hp hs hf
      exact ih depth p s ds onResult hp hs hf.2.2
  | primary h ih => exact operandRead_of_primary ih
  | call hf ho ha ihf iha => exact operandRead_call ihf ho iha
  | index hl ho hi hc ihl ihi => exact operandRead_index ihl ho ihi hc
  | identifier hk => exact reads_identifier hk
  | integer hk ht hv => exact reads_integer hk ht hv
  | boolean hk => exact reads_boolean hk
  | grouped ho he hc ih => exact reads_grouped ho ih hc
  | array ho he ih => exact reads_array ho ih
  | ifThen hw ho hc hk ht ihc iht => exact reads_ifThen hw ho ihc hk ht.leading_block iht
  | ifElse hw ho hc hk ht he hf ihc iht ihf =>
      exact reads_ifElse hw ho ihc hk ht.leading_block iht he hf.leading_block ihf
  | function hw ho hp hb ihp ihb => exact reads_function hw ho ihp hb.leading_block ihb
  | emptyList hc => exact reads_emptyList hc
  | list he hm hc ihe ihm => exact reads_list he.starts ihe hm.starts ihm hc
  | noMore => exact reads_noMore
  | more hk he hm ihe ihm => exact reads_more hk ihe hm.starts ihm
  | noParameters hc => exact reads_noParameters hc
  | parameters hn hm hc ih => exact reads_parameters hn ih hc
  | noMoreParameters => exact reads_noMoreParameters
  | moreParameters hk hn hm ih => exact reads_moreParameters hk hn ih

/-! ### Programs -/

/-- The nesting limit was reached. -/
def LimitReached (s : ParseState) : Prop :=
  ∃ d ∈ s.diagnostics, d.complaint = .nestedTooDeep

/-- The statements of a program are read without a diagnostic, unless the nesting limit is
reached. -/
theorem Derives.reads_program {ts : List Token} {ns : List Node} (h : Derives .statements ts [] ns)
    {depth rounds : Nat} {s : ParseState} {ds : List Diagnostic} (hs : Stands ts ds s)
    (hr : s.stream.pending.length ≤ rounds) :
    Ends (programStatements (statement depth) rounds) s
      (fun nodes s' => (nodes.map Node.unplaced = ns ∧ s'.diagnostics = ds) ∨ LimitReached s')
      anyFault := by
  induction ns generalizing ts s rounds with
  | nil =>
      cases h with
      | noStatement =>
          have hk : s.token.kind = .endOfInput := hs.kind
          rw [ends_programStatements_of_end _ _ hk]
          exact Or.inl ⟨rfl, hs.diagnostics⟩
  | cons n ns ih =>
      cases h with
      | @statements _ us _ _ _ h hrest =>
          obtain ⟨⟨t, rest, rfl⟩, -, hinput⟩ := exists_of_startsStatement h.starts
          obtain ⟨rounds, rfl⟩ := rounds_pos hs hr
          rw [ends_programStatements_succ _ _ (by rw [hs.kind]; exact hinput)]
          have hresumes : Resumes (leading us) :=
            resumes_of_statements hrest.starts (Or.inr rfl)
          refine ((h.reads depth s ds hs hresumes).and (orderly_statement depth s)).mono ?_ ?_
          · rintro _ s₁ ⟨⟨⟨m, rfl, hm⟩, hs₁⟩, hf, -⟩
            have hlen := hf.length_pending_le
            apply (ih hrest hs₁ (by simp; omega)).imp
            rintro nodes s₂ (⟨hnodes, hd⟩ | hlimit)
            · exact Or.inl ⟨by simp [hm, hnodes], hd⟩
            · exact Or.inr hlimit
          · intro fault s₁ _
            -- A statement that is nested too deeply is the only one that may be cut off here.
            split
            · exact Or.inr ⟨_, List.mem_append_right _ (List.mem_singleton_self _), rfl⟩
            · exact True.intro

/-- Tokens that make up a program are read as that program, without a diagnostic. -/
theorem Program.parsed {stream : TokenStream} {ns : List Node}
    (h : Program (stream.pending.map Token.unplaced) ns) {depth : Nat} {parsed : Parsed}
    (hp : stream.parseWithin depth = .ok parsed) (hl : parsed.WithinLimit) :
    parsed.diagnostics = [] ∧ parsed.tree.unplaced = .program ns Span.nowhere := by
  obtain ⟨nodes, span, s, ht, hd, hend | ⟨d, hm, hc⟩⟩ := TokenStream.parseWithin_ends
    (h.reads_program (s := { stream }) ⟨rfl, rfl⟩ (Nat.le_refl _)) hp
  · rw [hd, ht]
    exact ⟨hend.2, by simp [Node.unplaced, Node.unplacedAll_eq_map, hend.1]⟩
  · rw [← hd] at hm
    exact absurd hc (hl d hm)

end Grammar

end ExprLang
