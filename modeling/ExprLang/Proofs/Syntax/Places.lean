import ExprLang.Proofs.Syntax.Nodes
import ExprLang.Proofs.Token.Tiling

/-!
# Places of trees

A tree that is read from one token up to another has its place between them. Most trees start with
the first of these tokens and end with the last one. An infix operation, a call and an index start
with a tree of their own, and their place is what that tree covers together with the right operand
or the closing bracket.

## Implementation notes

Of two spans that start on the same line, `Span.cover` takes the larger ending column, also where
the second one ends on a later line. So the end of an infix operation may be off by its column, and
what is known of every place is `Span.Inside`: the column of the end is compared with that of the
last token only for places on one line.
-/

namespace ExprLang

namespace Span

/-- A span of a single line that does not end before it starts. -/
def OnOneLine (s : Span) : Prop :=
  s.startLine = s.endLine ∧ s.startColumn ≤ s.endColumn

/-- A span starts behind the start of one span, and it ends on the last line of another one at the
latest. On a single line it ends before the end of the other one. -/
structure Inside (first last s : Span) : Prop where
  start : first.startLine < s.startLine ∨
    first.startLine = s.startLine ∧ first.startColumn ≤ s.startColumn
  lines : s.startLine ≤ s.endLine
  endLine : s.endLine ≤ last.endLine
  columns : s.startLine = s.endLine → s.startColumn ≤ s.endColumn
  endColumn : s.startLine = s.endLine → s.endLine = last.endLine → s.endColumn ≤ last.endColumn

/-- The span from the start of one span to the end of another. -/
def upTo (s t : Span) : Span :=
  ⟨s.startLine, t.endLine, s.startColumn, t.endColumn⟩

/-- A span opens on the line where another one starts, and it ends on a later line, in a column
before that of the other end. -/
def Undercuts (t s : Span) : Prop :=
  s.startLine = t.startLine ∧ t.startLine < t.endLine ∧ t.endColumn < s.endColumn

instance (t s : Span) : Decidable (t.Undercuts s) :=
  inferInstanceAs (Decidable (_ ∧ _ ∧ _))

section Cover

variable {a b c d s t : Span}

theorem inside_self (h : a.OnOneLine) : Inside a a a := by
  obtain ⟨hline, hcolumn⟩ := h
  constructor <;> omega

/-- A span stays inside where the bounds move apart. -/
theorem Inside.wider (h : Inside b c s) (ha : a.OnOneLine) (hab : a.Before b) (hcd : c.Before d)
    (hd : d.OnOneLine) : Inside a d s := by
  obtain ⟨hstart, hlines, hendLine, hcolumns, hendColumn⟩ := h
  simp only [OnOneLine, Before] at ha hab hcd hd
  constructor <;> omega

section Behind

variable (hs : Inside a b s) (hbc : b.Before c) (ht : Inside c d t)

include hs hbc ht

theorem Inside.lines_le : s.endLine ≤ t.startLine := by
  calc s.endLine ≤ b.endLine := hs.endLine
    _ ≤ c.startLine := hbc.elim Int.le_of_lt fun h => Int.le_of_eq h.1
    _ ≤ t.startLine := ht.start.elim Int.le_of_lt fun h => Int.le_of_eq h.1

/-- Of two spans one behind the other the first one starts on an earlier line, or it is all on the
line where the second one starts, up to there. -/
theorem Inside.startLine_lt_or :
    s.startLine < t.startLine ∨
      s.startLine = t.startLine ∧ s.startColumn ≤ s.endColumn ∧ s.endColumn ≤ t.startColumn := by
  have hlines := hs.lines
  have hle := hs.lines_le hbc ht
  obtain hlt | hge := Int.lt_or_le s.startLine t.startLine
  · exact Or.inl hlt
  · have hline : s.startLine = s.endLine := by omega
    have hlast : s.endLine = b.endLine ∧ b.endColumn ≤ c.startColumn ∧
        c.startColumn ≤ t.startColumn := by
      have hend := hs.endLine
      have hstart := ht.start
      simp only [Before] at hbc
      omega
    refine Or.inr ⟨by omega, hs.columns hline, ?_⟩
    calc s.endColumn ≤ b.endColumn := hs.endColumn hline hlast.1
      _ ≤ c.startColumn := hlast.2.1
      _ ≤ t.startColumn := hlast.2.2

/-- What two spans one behind the other cover together starts with the first one and ends on the last
line of the second one. It ends with the second one, unless that undercuts the first one. -/
theorem Inside.cover_eq :
    s.cover t = ⟨s.startLine, t.endLine, s.startColumn,
      if t.Undercuts s then s.endColumn else t.endColumn⟩ := by
  have hle := hs.lines_le hbc ht
  have hlines := ht.lines
  have hcolumns := ht.columns
  obtain hlt | ⟨heq, hstart, hend⟩ := hs.startLine_lt_or hbc ht
  · have hne : ¬ t.Undercuts s := fun h => Int.ne_of_lt hlt h.1
    simp only [Span.cover, hlt, hne, if_true, if_false, Span.mk.injEq, and_true]
    omega
  · simp only [Span.cover, Undercuts, heq, Int.lt_irrefl, if_false, true_and, Span.mk.injEq]
    refine ⟨by omega, by omega, by omega, ?_⟩
    split <;> omega

/-- What a span covers together with a later one on a single line goes from its start to the end of
that one. -/
theorem Inside.cover_eq_upTo (hline : t.startLine = t.endLine) : s.cover t = s.upTo t := by
  have hnot : ¬ t.Undercuts s := fun h => Int.ne_of_lt h.2.1 hline
  rw [hs.cover_eq hbc ht, if_neg hnot, upTo]

theorem Inside.cover : Inside a d (s.cover t) := by
  have hle := hs.lines_le hbc ht
  have hlines := hs.lines
  have hlines' := ht.lines
  rw [hs.cover_eq hbc ht]
  -- A cover of a single line ends with the second span.
  have hone : s.startLine = t.endLine →
      t.startLine = t.endLine ∧ ¬ t.Undercuts s ∧ s.startColumn ≤ t.startColumn := by
    intro hline
    have hnot : ¬ t.Undercuts s := fun h => by have := h.2.1; omega
    have hcases := hs.startLine_lt_or hbc ht
    exact ⟨by omega, hnot, by omega⟩
  constructor
  · exact hs.start
  · show s.startLine ≤ t.endLine
    omega
  · exact ht.endLine
  · intro hline
    obtain ⟨hline', hnot, hcolumn⟩ := hone hline
    rw [if_neg hnot]
    exact Int.le_trans hcolumn (ht.columns hline')
  · intro hline hlast
    obtain ⟨hline', hnot, -⟩ := hone hline
    rw [if_neg hnot]
    exact ht.endColumn hline' hlast

end Behind

end Cover

end Span

/-! ### Trees between tokens -/

/-- One token of a list stands before another one. -/
structure Token.Precedes (ts : List Token) (a b : Token) : Prop where
  first : a ∈ ts
  last : b ∈ ts
  before : a.span.Before b.span

namespace Node

/-- Whether a node is read from a single token. -/
def isLeaf : Node → Bool
  | .identifier .. | .integer .. | .boolean .. => true
  | _ => false

/-- Whether a node starts with a token that belongs to no tree below it. -/
def startsItself : Node → Bool
  | .program .. | .block .. | .letBinding .. | .returning .. | .evaluated .. | .array ..
  | .unary .. | .ifThen .. | .ifElse .. | .function .. => true
  | _ => false

/-- The place of a node, by the tokens with which the rule that makes it starts and ends. Nothing is
said about infix operations. -/
def Spans (first last : Token) : Node → Prop
  | .identifier _ span | .integer _ span | .boolean _ span => first = last ∧ span = first.span
  | .call f _ span => last.kind = .rightParen ∧ span = f.span.upTo last.span
  | .index l _ span => last.kind = .rightBracket ∧ span = l.span.upTo last.span
  | .program _ span | .block _ span | .letBinding _ _ span | .returning _ span
  | .evaluated _ span | .array _ span | .unary _ _ span | .ifThen _ _ span | .ifElse _ _ _ span
  | .function _ _ span => span = first.span.upTo last.span
  | .binary .. => True
  | .placeholder _ => False

theorem spans_of_isLeaf {t : Token} {n : Node} (hn : n.isLeaf = true) (hs : n.span = t.span) :
    n.Spans t t := by
  cases n with
  | identifier | integer | boolean => exact ⟨rfl, hs⟩
  | _ => cases hn

theorem spans_of_startsItself {first last : Token} {n : Node} (hn : n.startsItself = true)
    (hs : n.span = first.span.upTo last.span) : n.Spans first last := by
  cases n with
  | identifier | integer | boolean | binary | call | index | placeholder => cases hn
  | _ => exact hs

/-- A tree was read from one token up to another one of a list, and its place is told by them and by
the trees with which it starts and ends. -/
inductive Between (ts : List Token) : Token → Token → Node → Prop where
  | leaf {t : Token} {n : Node} (hn : n.isLeaf = true) (ht : t ∈ ts) (hs : n.span = t.span) :
      Between ts t t n
  | whole {first last : Token} {n : Node} (hn : n.startsItself = true)
      (h : first = last ∧ first ∈ ts ∨ Token.Precedes ts first last)
      (hs : n.span = first.span.cover last.span) : Between ts first last n
  | grouped {opening first last closing : Token} {n : Node}
      (ho : Token.Precedes ts opening first) (hn : Between ts first last n)
      (hc : Token.Precedes ts last closing) : Between ts opening closing n
  | binary {first last operator first' last' : Token} {l r : Node}
      (hl : Between ts first last l) (h : Token.Precedes ts last first')
      (hr : Between ts first' last' r) :
      Between ts first last' (.binary l operator r (l.span.cover r.span))
  | call {first last closing : Token} {f : Node} {es : List Node} (hf : Between ts first last f)
      (hc : Token.Precedes ts last closing) :
      Between ts first closing (.call f es (f.span.cover closing.span))
  | index {first last closing : Token} {l i : Node} (hl : Between ts first last l)
      (hc : Token.Precedes ts last closing) :
      Between ts first closing (.index l i (l.span.cover closing.span))

/-- Every node of a tree was read between two tokens of a list. -/
def Placed (ts : List Token) (n : Node) : Prop :=
  ∀ m ∈ n.nodes, ∃ first last, Between ts first last m

section Between

variable {ts : List Token} (hts : ∀ t ∈ ts, t.span.OnOneLine) {first last : Token}

include hts

/-- The place of a tree is inside the tokens that it was read from. -/
theorem Between.inside {n : Node} (h : Between ts first last n) :
    Span.Inside first.span last.span n.span := by
  induction h with
  | @leaf t n hn ht hs =>
      rw [hs]
      exact Span.inside_self (hts t ht)
  | @whole first last n hn h hs =>
      rw [hs]
      obtain ⟨rfl, hm⟩ | h := h
      · rw [Span.cover_self]
        exact Span.inside_self (hts first hm)
      · exact (Span.inside_self (hts first h.first)).cover h.before
          (Span.inside_self (hts last h.last))
  | grouped ho hn hc ih =>
      exact ih.wider (hts _ ho.first) ho.before hc.before (hts _ hc.last)
  | binary hl h hr ihl ihr => exact ihl.cover h.before ihr
  | call hf hc ih => exact ih.cover hc.before (Span.inside_self (hts _ hc.last))
  | index hl hc ih => exact ih.cover hc.before (Span.inside_self (hts _ hc.last))

/-- An infix operation starts with its left operand and ends on the last line of its right one. It
ends with the right operand, unless that undercuts the left one. -/
theorem Between.span_binary {l r : Node} {operator : Token} {span : Span}
    (h : Between ts first last (.binary l operator r span)) :
    span = ⟨l.span.startLine, r.span.endLine, l.span.startColumn,
      if r.span.Undercuts l.span then l.span.endColumn else r.span.endColumn⟩ := by
  generalize hn : Node.binary l operator r span = n at h
  induction h with
  | leaf hleaf => simp [← hn, isLeaf] at hleaf
  | whole hwhole => simp [← hn, startsItself] at hwhole
  | grouped ho hn' hc ih => exact ih hn
  | binary hl h hr =>
      obtain ⟨rfl, rfl, rfl, rfl⟩ := Node.binary.inj hn
      exact (hl.inside hts).cover_eq h.before (hr.inside hts)
  | call => cases hn
  | index => cases hn

end Between

end Node

end ExprLang
