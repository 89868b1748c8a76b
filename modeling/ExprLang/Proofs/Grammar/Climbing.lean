import ExprLang.Proofs.Grammar.Basic
import ExprLang.Proofs.Parsing.Program
import ExprLang.Proofs.Syntax.Unplaced

/-!
# Taking up operators

The reader of an expression takes up operators from left to right as long as they bind tighter than
what stands to the left of the expression. What it takes up is grouped as the grammar says.

An operand is read up to the point where its reader looks for a further operator, and what the
reader does from there on is an argument of the statement.

## Implementation notes

A reader ends on the last token of its phrase, or at the end of the input if the phrase is a block
that is not closed. In both cases the tokens behind the phrase are those behind the current one, so
the end of a phrase is told by the state one token later.
-/

namespace ExprLang

namespace Grammar

open Parse

/-- A state from which certain tokens are to come, with certain diagnostics. -/
structure Stands (ts : List Token) (ds : List Diagnostic) (s : ParseState) : Prop where
  upcoming : s.upcoming = ts
  diagnostics : s.diagnostics = ds

namespace Stands

variable {t : Token} {ts : List Token} {ds : List Diagnostic} {s : ParseState}

theorem kind (h : Stands ts ds s) : s.token.kind = leading ts := by
  cases ts with
  | nil => exact ParseState.kind_of_upcoming_nil h.upcoming
  | cons t ts => exact ParseState.kind_of_upcoming h.upcoming

theorem token (h : Stands (t :: ts) ds s) : s.token.unplaced = t :=
  ParseState.token_of_upcoming h.upcoming

theorem text (h : Stands (t :: ts) ds s) : s.token.text = t.text :=
  ParseState.text_of_upcoming h.upcoming

theorem next (h : Stands (t :: ts) ds s) : Stands ts ds s.next :=
  ⟨by simp [h.upcoming], h.diagnostics⟩

end Stands

/-- A tree was read, and certain tokens are behind it. -/
def Yields (tree : Node) (ts : List Token) (ds : List Diagnostic) (result : Option Node)
    (s : ParseState) : Prop :=
  (∃ n, result = some n ∧ n.unplaced = tree) ∧ Stands ts ds s.next

/-- The kinds of tokens that do not continue an expression. -/
def Stops (k : Kind) : Prop :=
  k.precedence? = none ∧ k ≠ .elseWord

theorem Stops.rank {k : Kind} (h : Stops k) : k.precedence.rank = 1 := by
  simp [Kind.precedence, h.1, Precedence.rank]

/-! ### Expressions at work -/

section Loop

variable {depth rounds : Nat} {p : Precedence} {s : ParseState} {left : Option Node}
variable {onResult : Option Node → ParseState → Prop}

/-- An expression starts with the operand that the rule of the current token reads. -/
theorem ends_expression {rule : Parse (Option Node)}
    (h : operandRule? (expression depth) (statement depth) s.token.kind = some rule) :
    Ends (expression (depth + 1) p) s onResult anyFault ↔
      Ends rule s
        (fun n s' => Ends (extendWhile (expression depth) p s'.stream.pending.length n) s'
          onResult anyFault) anyFault := by
  simp only [expression, expressionBy, ends_bind, ends_current, h, ends_remaining]

/-- An expression ends where the next token binds no tighter than what stands to the left. -/
theorem extendWhile_stop (h : s.next.token.kind.precedence.rank ≤ p.rank)
    (hr : onResult left s) :
    Ends (extendWhile (expression depth) p rounds left) s onResult anyFault :=
  (ends_extendWhile_stop h rounds).mpr hr

/-- An expression goes on with a token that binds tighter. -/
theorem extendWhile_step (hp : p.rank < s.next.token.kind.precedence.rank)
    (hr : s.stream.pending.length ≤ rounds)
    (h : Ends (extend (expression depth) left) s.next
      (fun n s' => ∀ rounds, s'.stream.pending.length ≤ rounds →
        Ends (extendWhile (expression depth) p rounds n) s' onResult anyFault) anyFault) :
    Ends (extendWhile (expression depth) p rounds left) s onResult anyFault := by
  -- The end of the input binds least of all, so a token is left, and a round for it.
  have hk : s.next.token.kind ≠ .endOfInput := by
    intro hk
    have hl := p.rank_pos
    rw [hk, show Kind.endOfInput.precedence.rank = 1 from rfl] at hp
    omega
  have hpos : 0 < s.next.stream.pending.length :=
    List.length_pos_of_mem (token_mem_pending hk)
  simp only [ParseState.next_pending, List.length_tail] at hpos
  cases rounds with
  | zero => omega
  | succ rounds =>
      simp only [extendWhile, ends_bind, ends_peek, ends_ite, hp, if_true, ends_advance]
      have ho := orderly_extend (orderly_expression depth) left s.next
      refine (h.and ho).mono ?_ (fun _ _ _ => True.intro)
      rintro n s' ⟨hn, hf, -⟩
      have hlen := hf.length_pending_le
      simp only [ParseState.next_pending, List.length_tail] at hlen
      exact hn rounds (by omega)

end Loop

/-- An operand is read up to where its reader looks for a further operator. -/
def OperandRead (follow : Kind → Prop) (ts us : List Token) (e : Node) : Prop :=
  ∀ (depth : Nat) (p : Precedence) (s : ParseState) (ds : List Diagnostic)
    (onResult : Option Node → ParseState → Prop),
    p.rank ≤ 6 → Stands ts ds s → follow (leading us) →
    (∀ n s' rounds, n.unplaced = e → Stands us ds s'.next → s'.stream.pending.length ≤ rounds →
      Ends (extendWhile (expression depth) p rounds (some n)) s' onResult anyFault) →
    Ends (expression (depth + 1) p) s onResult anyFault

/-- A whole operand is followed by no suffix and by no alternative. -/
def Complete (k : Kind) : Prop :=
  k ≠ .leftParen ∧ k ≠ .leftBracket ∧ k ≠ .elseWord

theorem Complete.rank_le {k : Kind} (h : Complete k) : k.precedence.rank ≤ 6 := by
  obtain ⟨hp, hb, -⟩ := h
  revert hp hb
  cases k <;> simp [Kind.precedence, Kind.precedence?, Precedence.rank]

theorem Stops.complete {k : Kind} (h : Stops k) : Complete k := by
  obtain ⟨hp, he⟩ := h
  refine ⟨?_, ?_, he⟩ <;> rintro rfl <;> simp [Kind.precedence?] at hp

theorem complete_of_isBinary {k : Kind} (h : k.isBinary = true) : Complete k := by
  refine ⟨?_, ?_, ?_⟩ <;> rintro rfl <;> simp [Kind.isBinary] at h

/-- Operators with operands that are read. -/
inductive ChainRead : List Token → List Token → List (Token × Node) → Prop where
  | nil {ts : List Token} : ChainRead ts ts []
  | cons {operator : Token} {ts us vs : List Token} {operand : Node} {rest : List (Token × Node)}
      (hk : operator.kind.isBinary = true) (ho : OperandRead Complete ts us operand)
      (hr : ChainRead us vs rest) : ChainRead (operator :: ts) vs ((operator, operand) :: rest)

namespace ChainRead

variable {ts us : List Token} {rest : List (Token × Node)}

theorem complete_leading (h : ChainRead ts us rest) (hs : Stops (leading us)) :
    Complete (leading ts) := by
  cases h with
  | nil => exact hs.complete
  | cons hk ho hr => exact complete_of_isBinary hk

/-- The part of a chain that binds tighter than a precedence was taken up into a tree. -/
def Taken (p : Precedence) (first : Node) (us : List Token) (ds : List Diagnostic)
    (rest : List (Token × Node)) (result : Option Node) (s : ParseState) : Prop :=
  ∃ taken left e vs, rest = taken ++ left ∧ (∀ x ∈ taken, p.rank < x.1.rank) ∧
    (∀ x ∈ left.head?, x.1.rank ≤ p.rank) ∧ ChainRead vs us left ∧
    Grouped Token.rank first taken e ∧ Yields e vs ds result s

theorem Taken.none {p : Precedence} {n : Node} {ds : List Diagnostic} {s : ParseState}
    (h : ChainRead ts us rest) (hs : Stands ts ds s.next)
    (hp : ∀ x ∈ rest.head?, x.1.rank ≤ p.rank) :
    Taken p n.unplaced us ds rest (some n) s :=
  ⟨[], rest, n.unplaced, ts, rfl, by simp, hp, h, .single _, ⟨n, rfl, rfl⟩, hs⟩

/-- What is taken up behind an operator makes its right operand, and what is taken up behind that
belongs to the whole. -/
theorem Taken.fold {p : Precedence} {first operand right : Node} {operator : Token}
    {ds : List Diagnostic} {tight left : List (Token × Node)} {result : Option Node}
    {s : ParseState} (hp : p.rank < operator.rank) (hr : Grouped Token.rank operand tight right)
    (ht : ∀ x ∈ tight, operator.rank < x.1.rank) (hl : ∀ x ∈ left.head?, x.1.rank ≤ operator.rank)
    (h : Taken p (.binary first operator right Span.nowhere) us ds left result s) :
    Taken p first us ds ((operator, operand) :: tight ++ left) result s := by
  obtain ⟨taken, left', e, vs, rfl, htaken, hleft', hc, hg, hy⟩ := h
  refine ⟨(operator, operand) :: tight ++ taken, left', e, vs, by simp, ?_, hleft', hc, ?_, hy⟩
  · intro x hx
    rcases List.mem_append.mp hx with hx | hx
    · rcases List.mem_cons.mp hx with rfl | hx
      · exact hp
      · exact Nat.lt_trans hp (ht x hx)
    · exact htaken x hx
  · refine hr.fold ht ?_ hg
    intro x hx
    apply hl x
    cases taken with
    | nil => simp at hx
    | cons y taken => simpa using hx

/-- The loop of an expression takes up the operators that bind tighter than its precedence, and the
tree that it makes of them is grouped as it should be. -/
theorem taken (h : ChainRead ts us rest) (hus : Stops (leading us)) {depth rounds : Nat}
    {p : Precedence} {s : ParseState} {ds : List Diagnostic} {n : Node}
    (hs : Stands ts ds s.next) (hr : s.stream.pending.length ≤ rounds) :
    Ends (extendWhile (expression depth) p rounds (some n)) s
      (Taken p n.unplaced us ds rest) anyFault := by
  -- The right operand of an operator is read by a loop of its own, and the loop goes on behind it:
  -- both have a shorter chain before them.
  induction hlen : rest.length using Nat.strongRecOn generalizing rest ts depth rounds p s n with
  | _ len ih =>
      cases h with
      | nil =>
          have hk : s.next.token.kind.precedence.rank ≤ p.rank := by
            rw [hs.kind, hus.rank]
            exact p.rank_pos
          exact extendWhile_stop hk (Taken.none .nil hs (by simp))
      | @cons operator ts₁ us₁ _ operand rest hk ho hc =>
          have hkind : s.next.token.kind = operator.kind := hs.kind
          by_cases hp : p.rank < operator.rank
          · apply extendWhile_step (by rw [hkind]; exact hp) hr
            have hcomplete : Complete s.next.token.kind := hkind ▸ complete_of_isBinary hk
            rw [ends_extend_binary hcomplete.1 hcomplete.2.1]
            simp only [binary, ends_bind, ends_current, ends_advance, hkind, ends_pure]
            cases depth with
            | zero => exact True.intro
            | succ depth =>
                have hrank := Kind.rank_of_isBinary hk
                refine ho depth operator.kind.precedence s.next.next ds _ (by omega) hs.next
                  (hc.complete_leading hus) ?_
                intro n₁ s₁ rounds₁ hn₁ hs₁ hr₁
                apply (ih rest.length (by simp at hlen; omega) hc hs₁ hr₁ rfl).imp
                rintro result s₂ ⟨tight, left, e, vs, rfl, ht, hl, hc₂, hg, ⟨n₂, rfl, rfl⟩, hs₂⟩
                intro rounds₂ hr₂
                rw [hn₁] at hg
                apply (ih left.length (by simp at hlen; omega) hc₂ hs₂ hr₂ rfl).imp
                intro result s₃ htaken
                apply Taken.fold hp hg ht hl
                simpa [Node.unplaced, hs.token] using htaken
          · exact extendWhile_stop (by rw [hkind]; exact Nat.le_of_not_lt hp)
              (Taken.none (.cons hk ho hc) hs (by simpa using Nat.le_of_not_lt hp))

end ChainRead

end Grammar

end ExprLang
