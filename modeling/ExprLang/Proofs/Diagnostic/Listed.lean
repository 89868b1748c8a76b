import ExprLang.Proofs.Diagnostic.Detailed
import ExprLang.Proofs.Parsing.Charging
import ExprLang.Proofs.Token.Pulls

/-!
# The list of diagnostics

The diagnostics of a parse come in the order of the text, whether they are about the current token or
about the next one. There is at most one of them for every token and one for the end of the input, as
a token that many rules around it do not accept is charged to the tokens that opened those rules.

## Implementation notes

Both results read the laws of `Charging` in a way of their own. For the order, the current token is free
if all diagnostics start before it, and it has been spent if they start before the next one. For the
number, the tokens that were passed over and not charged are counted.
-/

namespace ExprLang

open Parse (Charging Follows)

namespace Span

/-- A span starts before another one starts, or where it starts. -/
def StartsBy (a b : Span) : Prop :=
  a.startLine < b.startLine ∨ a.startLine = b.startLine ∧ a.startColumn ≤ b.startColumn

variable {a b c : Span}

theorem startsBy_refl (a : Span) : a.StartsBy a :=
  Or.inr ⟨rfl, Int.le_refl _⟩

theorem StartsBy.trans (h : a.StartsBy b) (h' : b.StartsBy c) : a.StartsBy c := by
  unfold StartsBy at *
  omega

theorem Before.startsBy (h : a.Before b) (ha : a.OnOneLine) : a.StartsBy b := by
  unfold Before at h
  obtain ⟨hline, hcolumn⟩ := ha
  unfold StartsBy
  omega

end Span

/-! ### The order of diagnostics -/

/-- Of some diagnostics none starts before the one in front of it, and none behind a place. -/
structure Diagnostic.Sorted (ds : List Diagnostic) (place : Span) : Prop where
  pairwise : ds.Pairwise fun d d' => d.span.StartsBy d'.span
  startsBy : ∀ d ∈ ds, d.span.StartsBy place

namespace Diagnostic.Sorted

variable {ds : List Diagnostic} {place place' : Span}

theorem later (h : Sorted ds place) (hp : place.StartsBy place') : Sorted ds place' where
  pairwise := h.pairwise
  startsBy d hd := (h.startsBy d hd).trans hp

theorem append (h : Sorted ds place) (complaint : Complaint) :
    Sorted (ds ++ [⟨complaint, place⟩]) place where
  pairwise := by
    rw [List.pairwise_append]
    refine ⟨h.pairwise, List.pairwise_singleton _ _, ?_⟩
    intro d hd d' hd'
    rw [List.mem_singleton.mp hd']
    exact h.startsBy d hd
  startsBy := by
    intro d hd
    rcases List.mem_append.mp hd with hd | hd
    · exact h.startsBy d hd
    · rw [List.mem_singleton.mp hd]
      exact place.startsBy_refl

end Diagnostic.Sorted

/-- The current token does not start behind the next one. -/
theorem ParseState.Ordered.startsBy_next {ts : List Token} {s : ParseState} (h : s.Ordered ts) :
    s.token.span.StartsBy s.next.token.span :=
  (h.precedes (Follows.refl s.next)).before.startsBy (h.onOneLine _ h.token_mem)

/-- No diagnostic about the current token is listed behind one about the next token. -/
theorem charging_sorted (ts : List Token) :
    Charging (fun _ s => s.Ordered ts ∧ Diagnostic.Sorted s.diagnostics s.token.span)
      (fun _ s => s.Ordered ts ∧ Diagnostic.Sorted s.diagnostics s.next.token.span) where
  free_of_succ h := h
  spent_of_succ h := h
  keep h := ⟨h.1, h.2.later h.1.startsBy_next⟩
  next h _ := ⟨h.1.of_follows (Follows.next _), h.2⟩
  current h complaint :=
    ⟨h.1.of_follows (Follows.noting _ _ _), (h.2.append complaint).later h.1.startsBy_next⟩
  ahead h complaint := ⟨h.1.of_follows (Follows.noting _ _ _), h.2.append complaint⟩

/-! ### The number of diagnostics -/

/-- Every diagnostic uses up a token that was passed over, or the current one. -/
theorem charging_count (total : Nat) :
    Charging (fun n s => s.diagnostics.length + n + s.left ≤ total)
      (fun n s => s.diagnostics.length + n + s.left ≤ total + 1) where
  free_of_succ h := by omega
  spent_of_succ h := by omega
  keep h := by omega
  next h hs := by
    rw [ParseState.next_diagnostics, ParseState.next_left]
    omega
  current h complaint := by
    rw [ParseState.noting_diagnostics, ParseState.noting_left, List.length_append,
      List.length_singleton]
    omega
  ahead h complaint := by
    rw [ParseState.noting_diagnostics, ParseState.noting_left, List.length_append,
      List.length_singleton]
    omega

variable {depth : Nat} {program : String} {parsed : Parsed}

/-- The diagnostics of a program come in the order of the text. Each of them is about a token of the
program, or about the end of the input, and stands where that token stands, apart from the one about
the nesting limit; and none starts before the one that is listed in front of it. -/
theorem diagnostics_in_order (h : parseWithin depth program = .ok parsed) :
    (∀ d ∈ parsed.diagnostics, d.complaint ≠ .nestedTooDeep →
        ∃ t ∈ Token.scan program, d.complaint.token? = some t ∧ d.span = t.span) ∧
      parsed.diagnostics.Pairwise fun d d' => d.span.StartsBy d'.span := by
  have hordered := Token.ordered_ofProgram program
  constructor
  · intro d hd hc
    obtain ⟨front, rest, hsplit⟩ := List.append_of_mem hd
    obtain ⟨s, hs, -, hblames⟩ := TokenStream.exists_blames h hsplit hc
    exact hblames.exists_token (hordered.of_follows hs.follows)
  · have hnone : Diagnostic.Sorted [] (TokenStream.ofProgram program).head.span :=
      ⟨.nil, fun d hd => absurd hd List.not_mem_nil⟩
    obtain ⟨s, hd, hs⟩ := TokenStream.exists_spent (charging_sorted _) h ⟨hordered, hnone⟩
    rw [hd]
    exact hs.2.pairwise

/-- A diagnostic about the next token, and one where the nesting limit is reached on the next line. -/
theorem diagnostics_in_order_nested :
    ∃ parsed d d', parseWithin 5 "let (\n(((((1" = .ok parsed ∧ parsed.diagnostics = [d, d'] ∧
      d.complaint ≠ .nestedTooDeep ∧ d'.complaint = .nestedTooDeep ∧
      (∃ t ∈ Token.scan "let (\n(((((1", d.complaint.token? = some t ∧ d.span = t.span) ∧
      d.span.StartsBy d'.span := by
  obtain ⟨parsed, d, d', hp, hd, hc, hc'⟩ : ∃ parsed d d',
      parseWithin 5 "let (\n(((((1" = .ok parsed ∧ parsed.diagnostics = [d, d'] ∧
        d.complaint ≠ .nestedTooDeep ∧ d'.complaint = .nestedTooDeep :=
    ⟨_, _, _, rfl, rfl, Complaint.noConfusion, rfl⟩
  obtain ⟨htokens, hsorted⟩ := diagnostics_in_order hp
  rw [hd] at htokens hsorted
  have htoken := htokens d (by simp) hc
  exact ⟨parsed, d, d', hp, hd, hc, hc', htoken, by simpa using hsorted⟩

/-- A parse lists at most one diagnostic for every token that it is given and one more. -/
theorem TokenStream.length_diagnostics {stream : TokenStream}
    (h : stream.parseWithin depth = .ok parsed) :
    parsed.diagnostics.length ≤ stream.pending.length + 1 := by
  have hfree : ({ stream } : ParseState).left ≤ stream.pending.length := Nat.le_refl _
  obtain ⟨s, hd, hs⟩ := exists_spent (charging_count stream.pending.length) h (by simpa using hfree)
  rw [hd]
  omega

/-- A program has at most one diagnostic for every token and one for the end of the input, that about
the nesting limit being counted with the others. -/
theorem diagnostics_le_tokens (h : parseWithin depth program = .ok parsed) :
    parsed.diagnostics.length ≤ (Scanner.proper (Token.scan program)).length + 1 := by
  rw [Scanner.proper_scan]
  exact TokenStream.length_diagnostics h

/-- Two parentheses that are not closed have three diagnostics, all of them about the end of the
input. -/
theorem diagnostics_le_tokens_unclosed :
    ∃ parsed, parseWithin nestingLimit "((" = .ok parsed ∧ parsed.diagnostics.length = 3 ∧
      parsed.diagnostics.length ≤ (Scanner.proper (Token.scan "((")).length + 1 := by
  obtain ⟨parsed, hp, hlength⟩ :
      ∃ parsed, parseWithin nestingLimit "((" = .ok parsed ∧ parsed.diagnostics.length = 3 :=
    ⟨_, rfl, rfl⟩
  exact ⟨parsed, hp, hlength, diagnostics_le_tokens hp⟩

end ExprLang
