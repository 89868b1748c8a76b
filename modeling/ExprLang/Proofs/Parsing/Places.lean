import ExprLang.Proofs.Parsing.Program
import ExprLang.Proofs.Syntax.Places

/-!
# Places of trees that are read

The tokens of a program stand one behind the other, and a parse only goes forward. So every tree that
a rule returns was read between the tokens at which the rule started and ended, and so was every tree
below it, also where other parts of the program could not be read.

## Implementation notes

`PlacesAt` follows a rule from an earlier state on, the one in which the rule started. What is read
on the way is then known to stand behind the first token of the rule. Of a node that a rule makes, the
walk through the rule tells the place and the trees below it (`Makes`), and the run of the rule as a
whole tells that the node was made by it (`PlacesAt.reads`).
-/

namespace ExprLang

open Parse (Follows)

/-- The tokens from the current one on, the end of the input being the last. -/
def ParseState.tokens (s : ParseState) : List Token :=
  s.stream.pending ++ [Token.ending s.stream.endPlace]

/-- The tokens that are left are the last ones of a list of tokens, each of which is on one line, and
they stand one behind the other. -/
structure ParseState.Ordered (ts : List Token) (s : ParseState) : Prop where
  tokens : s.tokens <:+ ts
  onOneLine : ∀ t ∈ ts, t.span.OnOneLine
  pairwise : s.stream.pending.Pairwise fun t t' => t.span.Before t'.span
  before : ∀ t ∈ s.stream.pending, t.span.Before s.stream.endPlace
  ending : s.stream.endPlace.Before s.stream.endPlace

namespace ParseState.Ordered

variable {ts : List Token} {s s' : ParseState} (h : s.Ordered ts)

include h

theorem of_follows (hf : Follows s s') : s'.Ordered ts where
  tokens := by
    obtain ⟨passed, hp⟩ := hf.pending
    refine List.IsSuffix.trans ⟨passed, ?_⟩ h.tokens
    rw [ParseState.tokens, ParseState.tokens, ← hp, hf.endPlace, List.append_assoc]
  onOneLine := h.onOneLine
  pairwise := h.pairwise.sublist hf.pending.sublist
  before t ht := by rw [hf.endPlace]; exact h.before t (hf.pending.mem ht)
  ending := by rw [hf.endPlace]; exact h.ending

theorem token_mem : s.token ∈ ts := by
  apply h.tokens.mem
  cases hp : s.stream.pending <;> simp [token, TokenStream.head, ParseState.tokens, hp]

/-- The current token stands before all that come later. -/
theorem precedes (hf : Follows s.next s') : Token.Precedes ts s.token s'.token := by
  refine ⟨h.token_mem, (h.of_follows ((Follows.next s).trans hf)).token_mem, ?_⟩
  have hpending := hf.pending
  have hplace : s'.stream.endPlace = s.stream.endPlace := hf.endPlace
  cases hp : s.stream.pending with
  | nil =>
      rw [next_pending, hp, List.tail_nil, List.suffix_nil] at hpending
      simpa [token, TokenStream.head, hp, hpending, hplace, Token.ending] using h.ending
  | cons t rest =>
      rw [next_pending, hp, List.tail_cons] at hpending
      cases hp' : s'.stream.pending with
      | nil =>
          simpa [token, TokenStream.head, hp, hp', hplace, Token.ending] using
            h.before t (by simp [hp])
      | cons u us =>
          have hpairwise := h.pairwise
          rw [hp, List.pairwise_cons] at hpairwise
          simpa [token, TokenStream.head, hp, hp'] using
            hpairwise.1 u (hpending.mem (by simp [hp']))

/-- A parse that goes on is at the same token or behind it. -/
theorem reaches (hf : Follows s s') :
    s.token = s'.token ∧ s.token ∈ ts ∨ Token.Precedes ts s.token s'.token := by
  have hpending := hf.pending
  by_cases heq : s'.stream.pending = s.stream.pending
  · refine Or.inl ⟨?_, h.token_mem⟩
    simp [token, TokenStream.head, heq, hf.endPlace]
  · apply Or.inr
    apply h.precedes
    refine ⟨?_, hf.diagnostics, hf.endPlace⟩
    cases hp : s.stream.pending with
    | nil =>
        rw [hp, List.suffix_nil] at hpending
        exact absurd (hpending.trans hp.symm) heq
    | cons t rest =>
        rw [hp] at hpending heq
        rw [next_pending, hp, List.tail_cons]
        exact (List.suffix_cons_iff.mp hpending).resolve_left heq

end ParseState.Ordered

namespace Parse

open Node (Between)

section PlacesAt

variable {ts : List Token} {α β : Type} {s₀ s : ParseState} {good : α → ParseState → Prop}

/-- A step that comes later in a run from a state goes on from it and has a result of a certain
form. -/
def PlacesAt (ts : List Token) (s₀ s : ParseState) (good : α → ParseState → Prop)
    (step : Parse α) : Prop :=
  s₀.Ordered ts → Follows s₀ s → Ends step s (fun a s' => Follows s₀ s' ∧ good a s') anyFault

/-- A step as the first one of a run. -/
def Places (ts : List Token) (good : ParseState → α → ParseState → Prop) (step : Parse α) : Prop :=
  ∀ s, PlacesAt ts s s (good s) step

theorem PlacesAt.pure {a : α} (h : s₀.Ordered ts → Follows s₀ s → good a s) :
    PlacesAt ts s₀ s good (pure a) :=
  fun h₀ hf => ⟨hf, h h₀ hf⟩

theorem PlacesAt.bind {good' : β → ParseState → Prop} {step : Parse α} {f : α → Parse β}
    (h : PlacesAt ts s s good step) (hf : ∀ a s', good a s' → PlacesAt ts s₀ s' good' (f a)) :
    PlacesAt ts s₀ s good' (step >>= f) := by
  intro h₀ hs
  rw [ends_bind]
  apply Ends.imp (h (h₀.of_follows hs) (Follows.refl s))
  rintro a s' ⟨hs', ha⟩
  exact hf a s' ha h₀ (hs.trans hs')

theorem PlacesAt.ite {p : Prop} [Decidable p] {step step' : Parse α}
    (h : PlacesAt ts s₀ s good step) (h' : PlacesAt ts s₀ s good step') :
    PlacesAt ts s₀ s good (if p then step else step') := by
  by_cases hp : p
  · rw [if_pos hp]; exact h
  · rw [if_neg hp]; exact h'

theorem PlacesAt.current {f : Token → Parse α} (h : PlacesAt ts s₀ s good (f s.token)) :
    PlacesAt ts s₀ s good (current >>= f) := h

theorem PlacesAt.peek {f : Token → Parse α} (h : PlacesAt ts s₀ s good (f s.next.token)) :
    PlacesAt ts s₀ s good (peek >>= f) := h

theorem PlacesAt.remaining {f : Nat → Parse α}
    (h : PlacesAt ts s₀ s good (f s.stream.pending.length)) :
    PlacesAt ts s₀ s good (remaining >>= f) := h

theorem PlacesAt.spanFrom {start : Token} {f : Span → Parse α}
    (h : PlacesAt ts s₀ s good (f (start.span.cover s.token.span))) :
    PlacesAt ts s₀ s good (spanFrom start >>= f) := h

theorem PlacesAt.advance {f : Unit → Parse α} (h : PlacesAt ts s₀ s.next good (f ())) :
    PlacesAt ts s₀ s good (advance >>= f) :=
  fun h₀ hs => h h₀ (hs.trans (Follows.next s))

theorem PlacesAt.skipSemicolon {f : Unit → Parse α} (h : ∀ s, PlacesAt ts s₀ s good (f ())) :
    PlacesAt ts s₀ s good (skipSemicolon >>= f) := by
  intro h₀ hs
  rw [ends_bind, ends_skipSemicolon]
  split
  · exact h s.next h₀ (hs.trans (Follows.next s))
  · exact h s h₀ hs

theorem PlacesAt.expecting_kind {good : Option α → ParseState → Prop} {kind : Kind}
    {step : Parse (Option α)} (hn : ∀ s, good none s)
    (h : s.next.token.kind = kind → PlacesAt ts s₀ s.next good step) :
    PlacesAt ts s₀ s good (expecting kind step) := by
  intro h₀ hs
  rw [ends_expecting]
  split
  · next hk => exact h hk h₀ (hs.trans (Follows.next s))
  · exact ⟨hs.trans (Follows.noting s _ _), hn _⟩

theorem PlacesAt.expecting {good : Option α → ParseState → Prop} {kind : Kind}
    {step : Parse (Option α)} (hn : ∀ s, good none s) (h : PlacesAt ts s₀ s.next good step) :
    PlacesAt ts s₀ s good (expecting kind step) :=
  PlacesAt.expecting_kind hn fun _ => h

theorem PlacesAt.some {good : Option α → ParseState → Prop} {step : Parse α}
    (h : PlacesAt ts s₀ s (fun a => good (some a)) step) :
    PlacesAt ts s₀ s good (some <$> step) :=
  fun h₀ hs => (ends_map step Option.some).mpr (h h₀ hs)

theorem PlacesAt.of_some {good : Option α → ParseState → Prop} {step : Parse α}
    (h : PlacesAt ts s₀ s good (Option.some <$> step)) :
    PlacesAt ts s₀ s (fun a => good (Option.some a)) step :=
  fun h₀ hs => (ends_map step Option.some).mp (h h₀ hs)

end PlacesAt

/-! ### Trees -/

/-- The rule that makes a node, with a number of levels for what is nested in it. -/
def rule (levels : Nat) : Node → Parse (Option Node)
  | .program .. => some <$> program levels
  | .block .. => some <$> block (statement levels)
  | .letBinding .. => letStatement (expression levels)
  | .returning .. => returnStatement (expression levels)
  | .evaluated .. => expressionStatement (expression levels)
  | .identifier .. => identifier
  | .integer .. => integer
  | .boolean .. => boolean
  | .array .. => arrayLiteral (expression levels)
  | .unary .. => unary (expression levels)
  | .binary l .. => binary (expression levels) (some l)
  | .ifThen .. | .ifElse .. => conditional (expression levels) (statement levels)
  | .function .. => functionLiteral (statement levels)
  | .call f .. => call (expression levels) (some f)
  | .index l .. => index (expression levels) (some l)
  | .placeholder _ => pure none

/-- A node was made by its rule, which started and ended at tokens of a list and placed the node by
them. -/
def Made (ts : List Token) (n : Node) : Prop :=
  ∃ levels s s', s.tokens <:+ ts ∧ Follows s s' ∧ rule levels n s = .ok (some n) s' ∧
    n.Spans s.token s'.token

/-- Every node of a tree was read between two tokens of a list, and it was made by its rule. -/
def Built (ts : List Token) (n : Node) : Prop :=
  ∀ m ∈ n.nodes, (∃ first last, Between ts first last m) ∧ Made ts m

theorem built_iff {ts : List Token} {n : Node} :
    Built ts n ↔
      ((∃ first last, Between ts first last n) ∧ Made ts n) ∧ ∀ c ∈ n.children, Built ts c :=
  Node.forall_mem_nodes

section Trees

variable {ts : List Token} {s₀ s : ParseState}

/-- The tree of a result, if there is one, was read from a token up to the current one, and so were
all trees below it between other tokens. -/
def Reads (ts : List Token) (first : Token) (result : Option Node) (s : ParseState) : Prop :=
  ∀ n ∈ result, Between ts first s.token n ∧ Built ts n

/-- The tree of a result, if there is one, was read from a token up to the current one. Its root is
one that a rule makes, and it has its place by the token with which the rule started. -/
def Makes (ts : List Token) (first : Token) (levels : Nat) (step : Parse (Option Node))
    (start : Token) (result : Option Node) (s : ParseState) : Prop :=
  ∀ n ∈ result, Between ts first s.token n ∧ rule levels n = step ∧ n.Spans start s.token ∧
    ∀ c ∈ n.children, Built ts c

theorem reads_none (first : Token) (s : ParseState) : Reads ts first none s := by
  simp [Reads]

theorem makes_none (first : Token) (levels : Nat) (step : Parse (Option Node)) (start : Token)
    (s : ParseState) : Makes ts first levels step start none s := by
  simp [Makes]

theorem makes_some {first start : Token} {levels : Nat} {step : Parse (Option Node)} {n : Node}
    (hn : Between ts first s.token n) (hr : rule levels n = step) (hs : n.Spans start s.token)
    (hc : ∀ c ∈ n.children, Built ts c) : Makes ts first levels step start (some n) s := by
  rintro m ⟨⟩
  exact ⟨hn, hr, hs, hc⟩

/-- What a rule makes is made by it. -/
theorem PlacesAt.reads {first : Token} (levels : Nat) {step : Parse (Option Node)}
    (h : PlacesAt ts s s (Makes ts first levels step s.token) step) :
    PlacesAt ts s s (Reads ts first) step := by
  intro h₀ hf
  apply ((h h₀ hf).and (ends_run step s)).mono
  · rintro result s' ⟨⟨hs', hmakes⟩, hrun⟩
    refine ⟨hs', ?_⟩
    intro n hn
    obtain ⟨hbetween, hrule, hspans, hchildren⟩ := hmakes n hn
    cases hn
    rw [← hrule] at hrun
    have hmade : Made ts n := ⟨levels, s, s', h₀.tokens, hs', hrun, hspans⟩
    exact ⟨hbetween, built_iff.mpr ⟨⟨⟨first, s'.token, hbetween⟩, hmade⟩, hchildren⟩⟩
  · intros
    trivial

/-- A tree of the current token alone. -/
theorem makes_leaf {levels : Nat} {step : Parse (Option Node)} {n : Node} (h : s.Ordered ts)
    (hn : n.isLeaf = true) (hs : n.span = s.token.span) (hr : rule levels n = step) :
    Makes ts s.token levels step s.token (some n) s := by
  apply makes_some (.leaf hn h.token_mem hs) hr (Node.spans_of_isLeaf hn hs)
  intro c hc
  cases n with
  | identifier | integer | boolean => cases hc
  | _ => cases hn

/-- What is between two tokens of a run goes from the start of the first one to the end of the last
one. -/
theorem cover_eq_upTo (h₀ : s₀.Ordered ts) (hf : Follows s₀ s) :
    s₀.token.span.cover s.token.span = s₀.token.span.upTo s.token.span := by
  obtain ⟨heq, -⟩ | hprecedes := h₀.reaches hf
  · rw [heq, Span.cover_self]
    rfl
  · have hfirst := h₀.onOneLine _ hprecedes.first
    have hlast := h₀.onOneLine _ hprecedes.last
    exact (Span.inside_self hfirst).cover_eq_upTo hprecedes.before (Span.inside_self hlast) hlast.1

/-- A tree from the first token of a run up to the current one. -/
theorem makes_whole {levels : Nat} {step : Parse (Option Node)} {n : Node} (h₀ : s₀.Ordered ts)
    (hf : Follows s₀ s) (hn : n.startsItself = true)
    (hs : n.span = s₀.token.span.cover s.token.span) (hr : rule levels n = step)
    (hc : ∀ c ∈ n.children, Built ts c) :
    Makes ts s₀.token levels step s₀.token (some n) s := by
  apply makes_some (.whole hn (h₀.reaches hf) hs) hr _ hc
  rw [cover_eq_upTo h₀ hf] at hs
  exact Node.spans_of_startsItself hn hs

/-- The last steps of a rule that builds a tree from its first token on, if a part that it needs is
there. -/
theorem placesAt_whole {α : Type} {levels : Nat} {step : Parse (Option Node)} {result : Option α}
    {build : α → Span → Node}
    (hb : ∀ a span, (build a span).startsItself = true ∧ (build a span).span = span ∧
      rule levels (build a span) = step)
    (hc : ∀ a ∈ result, ∀ span, ∀ c ∈ (build a span).children, Built ts c) :
    PlacesAt ts s₀ s (Makes ts s₀.token levels step s₀.token)
      (spanFrom s₀.token >>= fun span => pure (result.map fun a => build a span)) := by
  apply PlacesAt.spanFrom
  apply PlacesAt.pure
  intro h₀ hf
  cases result with
  | none => exact makes_none _ _ _ _ s
  | some a =>
      obtain ⟨hstarts, hspan, hrule⟩ := hb a (s₀.token.span.cover s.token.span)
      exact makes_whole h₀ hf hstarts hspan hrule (hc a rfl _)

theorem Reads.built {first : Token} {result : Option Node} (h : Reads ts first result s)
    {n : Node} (hn : n ∈ result) : Built ts n :=
  (h n hn).2

/-- A name is a tree of the current token. -/
theorem PlacesAt.currentName {α : Type} {good : α → ParseState → Prop} {f : Name → Parse α}
    (h : ∀ name, Built ts (Node.ofName name) → PlacesAt ts s₀ s good (f name)) :
    PlacesAt ts s₀ s good (currentName >>= f) := by
  intro h₀ hf
  have hread : PlacesAt ts s s (Reads ts s.token) identifier :=
    PlacesAt.reads 0 (PlacesAt.current (PlacesAt.pure fun h _ => makes_leaf h rfl rfl rfl))
  have hname : Built ts (Node.ofName ⟨s.token.text, s.token.span⟩) :=
    (hread (h₀.of_follows hf) (Follows.refl s)).2.built rfl
  exact h _ hname h₀ hf

end Trees

/-! ### Literals and names -/

section Literals

variable {ts : List Token}

theorem places_identifier : Places ts (fun s => Reads ts s.token) identifier :=
  fun _ => PlacesAt.reads 0 (PlacesAt.current (PlacesAt.pure fun h _ => makes_leaf h rfl rfl rfl))

theorem places_boolean : Places ts (fun s => Reads ts s.token) boolean :=
  fun _ => PlacesAt.reads 0 (PlacesAt.current (PlacesAt.pure fun h _ => makes_leaf h rfl rfl rfl))

theorem places_integer : Places ts (fun s => Reads ts s.token) integer := by
  intro s
  apply PlacesAt.reads 0
  intro h₀ hs
  simp only [integer, ends_bind, ends_current]
  cases Text.readInt s.token.text with
  | error reason => exact True.intro
  | ok value =>
      simp only [ends_ite, ends_bind, ends_complain, ends_pure]
      split
      · exact ⟨Follows.noting s _ _, makes_none _ _ _ _ _⟩
      · exact ⟨hs, makes_leaf h₀ rfl rfl rfl⟩

end Literals

section Rules

variable {ts : List Token} {levels : Nat}
variable (he : ∀ p, Places ts (fun s => Reads ts s.token) (expression levels p))
variable (hs : Places ts (fun s => Reads ts s.token) (statement levels))

/-! ### Lists -/

include he in
theorem places_moreExpressions (rounds : Nat) :
    Places ts (fun _ results _ => ∀ result ∈ results, ∀ n ∈ result, Built ts n)
      (moreExpressions (expression levels) rounds) := by
  induction rounds with
  | zero => exact fun s => PlacesAt.pure (by simp)
  | succ rounds ih =>
      intro s
      apply PlacesAt.peek
      apply PlacesAt.ite _ (PlacesAt.pure (by simp))
      apply PlacesAt.advance
      apply PlacesAt.advance
      apply (he .lowest _).bind
      intro next s₁ hn
      apply (ih s₁).bind
      intro rest s₂ hr
      apply PlacesAt.pure
      intro _ _
      exact List.forall_mem_cons.mpr ⟨fun n => hn.built, hr⟩

include he in
theorem places_expressionList (closing : Kind) :
    Places ts (fun _ result s' => ∀ nodes ∈ result, s'.token.kind = closing ∧
      ∀ n ∈ nodes, Built ts n) (expressionList (expression levels) closing) := by
  intro s
  apply PlacesAt.peek
  by_cases hk : s.next.token.kind = closing
  · rw [if_pos hk]
    apply PlacesAt.advance
    apply PlacesAt.pure
    rintro _ _ nodes ⟨⟩
    exact ⟨hk, by simp⟩
  · rw [if_neg hk]
    apply PlacesAt.advance
    apply (he .lowest _).bind
    intro first s₁ hf
    apply PlacesAt.remaining
    apply (places_moreExpressions he _ s₁).bind
    intro rest s₂ hr
    apply PlacesAt.expecting_kind (by simp)
    intro hclosing
    apply PlacesAt.pure
    intro _ _ nodes hnodes
    refine ⟨hclosing, ?_⟩
    intro n hn
    have hall := List.forall_mem_cons.mpr ⟨fun n => hf.built, hr⟩
    rw [eq_map_some_of_allPresent hnodes] at hall
    exact hall (some n) (List.mem_map_of_mem hn) n rfl

theorem places_moreParameters (rounds : Nat) :
    Places ts (fun _ result _ => ∀ names ∈ result, ∀ p ∈ names, Built ts (Node.ofName p))
      (moreParameters rounds) := by
  induction rounds with
  | zero => exact fun s => PlacesAt.pure (by simp)
  | succ rounds ih =>
      intro s
      apply PlacesAt.peek
      apply PlacesAt.ite _ (PlacesAt.pure (by simp))
      apply PlacesAt.advance
      apply PlacesAt.expecting (by simp)
      apply PlacesAt.currentName
      intro name hn
      apply (ih _).bind
      intro rest s₁ hr
      apply PlacesAt.pure
      intro _ _ names hm
      obtain ⟨names', hr', rfl⟩ := Option.map_eq_some_iff.mp hm
      exact List.forall_mem_cons.mpr ⟨hn, hr names' hr'⟩

theorem places_parameters :
    Places ts (fun _ result _ => ∀ names ∈ result, ∀ p ∈ names, Built ts (Node.ofName p))
      parameters := by
  intro s
  apply PlacesAt.peek
  apply PlacesAt.ite
  · exact PlacesAt.advance (PlacesAt.pure (by simp))
  · apply PlacesAt.expecting (by simp)
    apply PlacesAt.currentName
    intro first hf
    apply PlacesAt.remaining
    apply (places_moreParameters _ _).bind
    intro rest s₁ hr
    cases rest with
    | none => exact PlacesAt.pure (by simp)
    | some rest =>
        apply PlacesAt.expecting (by simp)
        apply PlacesAt.pure
        rintro _ _ names ⟨⟩
        exact List.forall_mem_cons.mpr ⟨hf, hr rest rfl⟩

/-! ### Blocks -/

include hs in
theorem places_blockStatements (rounds : Nat) :
    Places ts (fun _ nodes _ => ∀ n ∈ nodes, Built ts n) (blockStatements (statement levels) rounds) := by
  induction rounds with
  | zero => exact fun s => PlacesAt.pure (by simp)
  | succ rounds ih =>
      intro s
      apply PlacesAt.current
      apply PlacesAt.ite (PlacesAt.pure (by simp))
      apply (hs s).bind
      intro next s₁ hn
      apply PlacesAt.advance
      apply (ih _).bind
      intro rest s₂ hr
      apply PlacesAt.pure
      intro _ _
      exact List.forall_mem_append.mpr ⟨fun n hm => hn.built (Option.mem_toList.mp hm), hr⟩

include hs in
theorem places_block :
    Places ts (fun s n => Reads ts s.token (some n)) (block (statement levels)) := by
  intro s
  apply PlacesAt.of_some
  apply PlacesAt.reads levels
  apply PlacesAt.some
  apply PlacesAt.current
  apply PlacesAt.advance
  apply PlacesAt.remaining
  apply (places_blockStatements hs _ _).bind
  intro statements s₁ hn
  apply PlacesAt.spanFrom
  apply PlacesAt.pure
  intro h₀ hf
  exact makes_whole h₀ hf rfl rfl rfl hn

/-! ### Operands -/

include he in
theorem places_unary : Places ts (fun s => Reads ts s.token) (unary (expression levels)) := by
  intro s
  apply PlacesAt.reads levels
  apply PlacesAt.current
  apply PlacesAt.advance
  apply (he .unary _).bind
  intro operand s₁ ho
  apply placesAt_whole
  · exact fun _ _ => ⟨rfl, rfl, rfl⟩
  · intro e hoe _
    exact List.forall_mem_singleton.mpr (ho.built hoe)

include he in
theorem places_grouped : Places ts (fun s => Reads ts s.token) (grouped (expression levels)) := by
  intro s h₀ hs
  simp only [grouped, ends_bind, ends_advance]
  apply Ends.imp (he .lowest s.next (h₀.of_follows (Follows.next s)) (Follows.refl _))
  rintro inner s₁ ⟨hf, hi⟩
  have hs₁ : Follows s s₁ := (Follows.next s).trans hf
  refine PlacesAt.expecting (reads_none _) (PlacesAt.pure fun _ _ n hn => ?_) h₀ hs₁
  constructor
  · exact .grouped (h₀.precedes (Follows.refl _)) (hi n hn).1
      ((h₀.of_follows hs₁).precedes (Follows.refl _))
  · exact hi.built hn

include he hs in
theorem places_conditional :
    Places ts (fun s => Reads ts s.token) (conditional (expression levels) (statement levels)) := by
  intro s
  apply PlacesAt.reads levels
  apply PlacesAt.current
  apply PlacesAt.expecting (makes_none _ _ _ _)
  apply PlacesAt.advance
  apply (he .lowest _).bind
  intro condition s₁ hc
  apply PlacesAt.expecting (makes_none _ _ _ _)
  apply PlacesAt.expecting (makes_none _ _ _ _)
  apply (places_block hs _).bind
  intro consequence s₂ ht
  apply PlacesAt.peek
  apply PlacesAt.ite
  · apply PlacesAt.advance
    apply PlacesAt.expecting (makes_none _ _ _ _)
    apply (places_block hs _).bind
    intro alternative s₃ hf
    apply placesAt_whole
    · exact fun _ _ => ⟨rfl, rfl, rfl⟩
    · intro c hcc _
      simp [Node.children, hc.built hcc, ht.built rfl, hf.built rfl]
  · apply placesAt_whole
    · exact fun _ _ => ⟨rfl, rfl, rfl⟩
    · intro c hcc _
      simp [Node.children, hc.built hcc, ht.built rfl]

include hs in
theorem places_functionLiteral :
    Places ts (fun s => Reads ts s.token) (functionLiteral (statement levels)) := by
  intro s
  apply PlacesAt.reads levels
  apply PlacesAt.current
  apply PlacesAt.expecting (makes_none _ _ _ _)
  apply (places_parameters _).bind
  intro names s₁ hp
  cases names with
  | none => exact PlacesAt.pure fun _ _ => makes_none _ _ _ _ _
  | some names =>
      apply PlacesAt.expecting (makes_none _ _ _ _)
      apply (places_block hs _).bind
      intro body s₂ hb
      apply PlacesAt.spanFrom
      apply PlacesAt.pure
      intro h₀ hf
      apply makes_whole h₀ hf rfl rfl rfl
      rw [Node.children, List.forall_mem_append, List.forall_mem_map, List.forall_mem_singleton]
      exact ⟨hp names rfl, hb.built rfl⟩

include he in
theorem places_arrayLiteral : Places ts (fun s => Reads ts s.token) (arrayLiteral (expression levels)) := by
  intro s
  apply PlacesAt.reads levels
  apply PlacesAt.current
  apply (places_expressionList he .rightBracket s).bind
  intro elements s₁ hn
  exact placesAt_whole (fun _ _ => ⟨rfl, rfl, rfl⟩) fun es hes _ => (hn es hes).2

include he hs in
theorem places_operandRule {kind : Kind} {rule : Parse (Option Node)}
    (h : operandRule? (expression levels) (statement levels) kind = some rule) :
    Places ts (fun s => Reads ts s.token) rule := by
  cases kind <;> cases h
  case identifier => exact places_identifier
  case integer => exact places_integer
  case trueWord => exact places_boolean
  case falseWord => exact places_boolean
  case bang => exact places_unary he
  case minus => exact places_unary he
  case leftParen => exact places_grouped he
  case ifWord => exact places_conditional he hs
  case funcWord => exact places_functionLiteral hs
  case leftBracket => exact places_arrayLiteral he

/-! ### Going on from an operand -/

section Extend

variable {first : Token} {s : ParseState} {left : Option Node}
variable (h₀ : s.Ordered ts) (hl : Reads ts first left s)

include he h₀ hl

theorem places_binary :
    PlacesAt ts s.next s.next (Reads ts first) (binary (expression levels) left) := by
  apply PlacesAt.reads levels
  apply PlacesAt.current
  apply PlacesAt.advance
  apply (he _ _).bind
  intro right s₁ hr
  apply PlacesAt.pure
  intro _ _
  cases left with
  | none => exact makes_none _ _ _ _ _
  | some l =>
      cases right with
      | none => exact makes_none _ _ _ _ _
      | some r =>
          have hbetween : Between ts first s₁.token
              (.binary l s.next.token r (l.span.cover r.span)) :=
            .binary (hl l rfl).1 (h₀.precedes (Follows.next s.next)) (hr r rfl).1
          apply makes_some hbetween rfl True.intro
          simp [Node.children, hl.built rfl, hr.built rfl]

omit he in
/-- What a tree and a closing bracket behind it cover goes from the start of the tree to the end of
the bracket. -/
theorem cover_closing_eq_upTo {f : Node} {s' : ParseState} (hf : f ∈ left) (hn : Follows s.next s') :
    f.span.cover s'.token.span = f.span.upTo s'.token.span := by
  have hprecedes := h₀.precedes hn
  have hclosing := h₀.onOneLine _ hprecedes.last
  exact ((hl f hf).1.inside h₀.onOneLine).cover_eq_upTo hprecedes.before
    (Span.inside_self hclosing) hclosing.1

theorem places_call :
    PlacesAt ts s.next s.next (Reads ts first) (call (expression levels) left) := by
  apply PlacesAt.reads levels
  apply (places_expressionList he .rightParen s.next).bind
  intro arguments s₁ ha
  apply PlacesAt.current
  apply PlacesAt.pure
  intro _ hf
  cases left with
  | none => exact makes_none _ _ _ _ _
  | some f =>
      cases arguments with
      | none => exact makes_none _ _ _ _ _
      | some es =>
          obtain ⟨hclosing, hes⟩ := ha es rfl
          apply makes_some (.call (hl f rfl).1 (h₀.precedes hf)) rfl
          · exact ⟨hclosing, cover_closing_eq_upTo h₀ hl rfl hf⟩
          · exact List.forall_mem_cons.mpr ⟨hl.built rfl, hes⟩

theorem places_index :
    PlacesAt ts s.next s.next (Reads ts first) (index (expression levels) left) := by
  apply PlacesAt.reads levels
  apply PlacesAt.advance
  apply (he .lowest _).bind
  intro position s₁ hp
  apply PlacesAt.expecting_kind (makes_none _ _ _ _)
  intro hclosing
  apply PlacesAt.current
  apply PlacesAt.pure
  intro _ hf
  cases left with
  | none => exact makes_none _ _ _ _ _
  | some l =>
      cases position with
      | none => exact makes_none _ _ _ _ _
      | some i =>
          apply makes_some (.index (hl l rfl).1 (h₀.precedes hf)) rfl
          · exact ⟨hclosing, cover_closing_eq_upTo h₀ hl rfl hf⟩
          · simp [Node.children, hl.built rfl, hp.built rfl]

theorem places_extend : PlacesAt ts s.next s.next (Reads ts first) (extend (expression levels) left) := by
  apply PlacesAt.current
  split
  · exact places_call he h₀ hl
  · exact places_index he h₀ hl
  · exact places_binary he h₀ hl

end Extend

include he in
theorem places_extendWhile (precedence : Precedence) (rounds : Nat) {first : Token}
    {s₀ s : ParseState} {left : Option Node} (hl : Reads ts first left s) :
    PlacesAt ts s₀ s (Reads ts first) (extendWhile (expression levels) precedence rounds left) := by
  induction rounds generalizing s left with
  | zero => exact PlacesAt.pure fun _ _ => hl
  | succ rounds ih =>
      apply PlacesAt.peek
      apply PlacesAt.ite _ (PlacesAt.pure fun _ _ => hl)
      intro h₀ hs
      have hround := places_extend he (h₀.of_follows hs) hl
      exact PlacesAt.advance (hround.bind fun extended s₁ hx => ih hx) h₀ hs

include he hs in
theorem places_expressionBy (precedence : Precedence) :
    Places ts (fun s => Reads ts s.token) (expressionBy (expression levels) (statement levels) precedence) := by
  intro s
  apply PlacesAt.current
  split
  · exact fun _ _ => ⟨Follows.noting s _ _, reads_none _ _⟩
  · next rule hr =>
      apply (places_operandRule he hs hr s).bind
      intro operand s₁ ho
      apply PlacesAt.remaining
      exact places_extendWhile he precedence _ ho

/-! ### Statements -/

include he in
theorem places_letStatement : Places ts (fun s => Reads ts s.token) (letStatement (expression levels)) := by
  intro s
  apply PlacesAt.reads levels
  apply PlacesAt.current
  apply PlacesAt.expecting (makes_none _ _ _ _)
  apply PlacesAt.currentName
  intro name hn
  apply PlacesAt.expecting (makes_none _ _ _ _)
  apply PlacesAt.advance
  apply (he .lowest _).bind
  intro value s₁ hv
  apply PlacesAt.skipSemicolon
  intro s₂
  apply placesAt_whole
  · exact fun _ _ => ⟨rfl, rfl, rfl⟩
  · intro v hvv _
    simp [Node.children, hn, hv.built hvv]

include he in
theorem places_returnStatement :
    Places ts (fun s => Reads ts s.token) (returnStatement (expression levels)) := by
  intro s
  apply PlacesAt.reads levels
  apply PlacesAt.current
  apply PlacesAt.advance
  apply (he .lowest _).bind
  intro value s₁ hv
  apply PlacesAt.skipSemicolon
  intro s₂
  apply placesAt_whole
  · exact fun _ _ => ⟨rfl, rfl, rfl⟩
  · intro v hvv _
    exact List.forall_mem_singleton.mpr (hv.built hvv)

include he in
theorem places_expressionStatement :
    Places ts (fun s => Reads ts s.token) (expressionStatement (expression levels)) := by
  intro s
  apply PlacesAt.reads levels
  apply PlacesAt.current
  apply (he .lowest _).bind
  intro value s₁ hv
  apply PlacesAt.skipSemicolon
  intro s₂
  apply placesAt_whole
  · exact fun _ _ => ⟨rfl, rfl, rfl⟩
  · intro v hvv _
    exact List.forall_mem_singleton.mpr (hv.built hvv)

include he in
theorem places_statementBy : Places ts (fun s => Reads ts s.token) (statementBy (expression levels)) := by
  intro s
  apply PlacesAt.current
  split
  · exact places_letStatement he s
  · exact places_returnStatement he s
  · exact places_expressionStatement he s

end Rules

/-! ### Nesting -/

theorem places_readers (ts : List Token) (depth : Nat) :
    (∀ p, Places ts (fun s => Reads ts s.token) (expression depth p)) ∧
      Places ts (fun s => Reads ts s.token) (statement depth) := by
  induction depth with
  | zero => exact ⟨fun _ _ _ _ => True.intro, fun _ _ _ => True.intro⟩
  | succ depth ih =>
      constructor
      · intro p
        rw [expression]
        exact places_expressionBy ih.1 ih.2 p
      · rw [statement]
        exact places_statementBy ih.1

theorem programStatements_built {ts : List Token} {s : ParseState}
    {statement : Parse (Option Node)} (hs : Places ts (fun s => Reads ts s.token) statement)
    (rounds : Nat) (h : s.Ordered ts) :
    Ends (programStatements statement rounds) s (fun nodes _ => ∀ n ∈ nodes, Built ts n)
      anyFault := by
  induction rounds generalizing s with
  | zero => simp [programStatements]
  | succ rounds ih =>
      by_cases hk : s.token.kind = .endOfInput
      · simp [programStatements, hk]
      · rw [ends_programStatements_succ statement rounds hk]
        apply Ends.mono (hs s h (Follows.refl s))
        · rintro next s' ⟨hf, hn⟩
          apply Ends.imp (ih (h.of_follows (hf.trans (Follows.next s'))))
          intro rest s'' hr
          exact List.forall_mem_append.mpr ⟨fun n hm => hn.built (Option.mem_toList.mp hm), hr⟩
        · intro fault s' _
          split
          · simp
          · exact True.intro

/-- The tree of a program was read from its first token up to the last one that was looked at. -/
theorem places_program {ts : List Token} (depth : Nat) :
    Places ts (fun s n => Reads ts s.token (some n)) (program depth) := by
  intro s
  apply PlacesAt.of_some
  apply PlacesAt.reads depth
  apply PlacesAt.some
  intro h₀ hs
  simp only [program, ends_bind, ends_current, ends_remaining, ends_spanFrom, ends_pure]
  have hbuilt := programStatements_built (places_readers ts depth).2 s.stream.pending.length h₀
  have hfollows := programStatements_orderly (s := s) (orderly_statement depth)
    s.stream.pending.length
  apply Ends.mono (hbuilt.and hfollows)
  · rintro statements s' ⟨hn, hf⟩
    exact ⟨hf, makes_whole h₀ hf rfl rfl rfl hn⟩
  · exact fun _ _ _ => True.intro

end Parse

/-! ### The tokens of a program -/

namespace Token

variable (program : String)

theorem exists_endPlace : ∃ line column, endPlace program = Span.onLine line column column := by
  cases hlast : (Text.lines program.toList).getLast? with
  | none => exact ⟨1, 0, by simp [endPlace, hlast]⟩
  | some last => exact ⟨_, _, endPlace_of_getLast hlast⟩

theorem onOneLine_scan : ∀ t ∈ scan program, t.span.OnOneLine := by
  intro t ht
  rw [scan, List.mem_append, List.mem_singleton] at ht
  obtain ht | rfl := ht
  · obtain ⟨i, line, -, start, stop, hspan, hlt, -⟩ := exists_place ht
    rw [hspan]
    exact ⟨rfl, Int.ofNat_le.mpr (Nat.le_of_lt hlt)⟩
  · obtain ⟨line, column, hplace⟩ := exists_endPlace program
    rw [endOf, ending, hplace]
    exact ⟨rfl, Int.le_refl column⟩

theorem ordered_ofProgram :
    ParseState.Ordered (scan program) { stream := TokenStream.ofProgram program } where
  tokens := List.suffix_refl _
  onOneLine := onOneLine_scan program
  pairwise := pairwise_ofLines 1 _
  before _ := before_endPlace
  ending := by
    obtain ⟨line, column, hplace⟩ := exists_endPlace program
    rw [TokenStream.ofProgram, hplace]
    exact Or.inr ⟨rfl, Int.le_refl column⟩

end Token

variable {depth : Nat} {program : String} {parsed : Parsed}

/-- Every tree of a program was read between two tokens of it, and made by its rule. -/
theorem built_of_parseWithin (h : parseWithin depth program = .ok parsed) :
    Parse.Built (Token.scan program) parsed.tree := by
  have hend := Parse.places_program depth _ (Token.ordered_ofProgram program) (Follows.refl _)
  unfold parseWithin TokenStream.parseWithin at h
  cases hs : Parse.program depth { stream := TokenStream.ofProgram program } with
  | error fault s => simp [hs] at h
  | ok tree s =>
      simp only [hs, Except.ok.injEq] at h
      subst h
      exact (hend.ok hs).2.built rfl

theorem placed_of_parseWithin (h : parseWithin depth program = .ok parsed) :
    parsed.tree.Placed (Token.scan program) :=
  fun m hm => (built_of_parseWithin h m hm).1

/-- An infix operation of a program starts where its left operand starts and ends on the line where
its right operand ends. It also ends in that column, unless the right operand opens on the line where
the left one starts and closes on a later line, in a column before the end of the left one. It then
ends in the column where the left operand ends. -/
theorem span_binary_of_parseWithin (h : parseWithin depth program = .ok parsed) {l r : Node}
    {operator : Token} {span : Span} (hn : .binary l operator r span ∈ parsed.tree.nodes) :
    span = ⟨l.span.startLine, r.span.endLine, l.span.startColumn,
      if r.span.Undercuts l.span then l.span.endColumn else r.span.endColumn⟩ := by
  obtain ⟨first, last, hbetween⟩ := placed_of_parseWithin h _ hn
  exact hbetween.span_binary (Token.onOneLine_scan program)

/-- A right operand on two lines, and the infix operation ends with it. -/
theorem span_binary_of_two_lines :
    ∃ parsed l operator r span, parseWithin nestingLimit "1 + [\n1]" = .ok parsed ∧
      .binary l operator r span ∈ parsed.tree.nodes ∧ r.span.isMultiline = true ∧
      span = ⟨l.span.startLine, r.span.endLine, l.span.startColumn, r.span.endColumn⟩ := by
  have hp : parseWithin nestingLimit "1 + [\n1]" = .ok ⟨.program [.evaluated
      (.binary (.integer 1 ⟨1, 1, 0, 1⟩) ⟨"+", .plus, ⟨1, 1, 2, 3⟩⟩
        (.array [.integer 1 ⟨2, 2, 0, 1⟩] ⟨1, 2, 4, 2⟩) ⟨1, 2, 0, 2⟩) ⟨1, 2, 0, 2⟩]
      ⟨1, 2, 0, 2⟩, []⟩ := rfl
  exact ⟨_, _, _, _, _, hp, .tail _ (.tail _ (.head _)), rfl,
    span_binary_of_parseWithin hp (.tail _ (.tail _ (.head _)))⟩

/-- A right operand that closes before the column where the left one ends. The infix operation ends
behind it, and behind the program that it is all of. -/
theorem binary_ends_past_program :
    ∃ parsed l operator r span, parse "1111 + [\n1]" = .ok parsed ∧
      .binary l operator r span ∈ parsed.tree.nodes ∧ span.endLine = r.span.endLine ∧
      r.span.endColumn < span.endColumn ∧ parsed.tree.span.endLine = span.endLine ∧
      parsed.tree.span.endColumn < span.endColumn := by
  have hp : parse "1111 + [\n1]" = .ok ⟨.program [.evaluated
      (.binary (.integer 1111 ⟨1, 1, 0, 4⟩) ⟨"+", .plus, ⟨1, 1, 5, 6⟩⟩
        (.array [.integer 1 ⟨2, 2, 0, 1⟩] ⟨1, 2, 7, 2⟩) ⟨1, 2, 0, 4⟩) ⟨1, 2, 0, 2⟩]
      ⟨1, 2, 0, 2⟩, []⟩ := rfl
  exact ⟨_, _, _, _, _, hp, .tail _ (.tail _ (.head _)), rfl, by decide, rfl, by decide⟩

/-- Every node of a program was made by its rule, and it has its place by the tokens with which the
rule started and ended. A name or a literal has the place of its token. A call and an index go from
the start of the tree before the brackets to the end of the closing one. All other nodes but infix
operations go from the start of the first token to the end of the last one. -/
theorem spans_of_parseWithin (h : parseWithin depth program = .ok parsed) {n : Node}
    (hn : n ∈ parsed.tree.nodes) :
    ∃ levels s s', s.tokens <:+ Token.scan program ∧ Follows s s' ∧
      Parse.rule levels n s = .ok (some n) s' ∧ n.Spans s.token s'.token := by
  obtain ⟨-, levels, s, s', htokens, hfollows, hrun, hspans⟩ := built_of_parseWithin h n hn
  exact ⟨levels, s, s', htokens, hfollows, hrun, hspans⟩

/-- An index behind an array on two lines, which ends before the column where the array opens. -/
theorem spans_of_index_behind_lines :
    ∃ parsed l i span, parseWithin nestingLimit "       [1,\n2][0]" = .ok parsed ∧
      .index l i span ∈ parsed.tree.nodes ∧ l.span.isMultiline = true ∧ span = ⟨1, 2, 7, 5⟩ ∧
      ∃ levels s s', s.tokens <:+ Token.scan "       [1,\n2][0]" ∧ Follows s s' ∧
        Parse.rule levels (.index l i span) s = .ok (some (.index l i span)) s' ∧
        (Node.index l i span).Spans s.token s'.token := by
  have hp : parseWithin nestingLimit "       [1,\n2][0]" = .ok ⟨.program [.evaluated
      (.index (.array [.integer 1 ⟨1, 1, 8, 9⟩, .integer 2 ⟨2, 2, 0, 1⟩] ⟨1, 2, 7, 2⟩)
        (.integer 0 ⟨2, 2, 3, 4⟩) ⟨1, 2, 7, 5⟩) ⟨1, 2, 7, 5⟩] ⟨1, 2, 7, 5⟩, []⟩ := rfl
  exact ⟨_, _, _, _, hp, .tail _ (.tail _ (.head _)), rfl, rfl,
    spans_of_parseWithin hp (.tail _ (.tail _ (.head _)))⟩

end ExprLang
