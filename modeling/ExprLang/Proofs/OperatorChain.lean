import ExprLang.Proofs.Grammar.Printed
import ExprLang.Proofs.Parsing.Depth

/-!
# Chains of operators

Operands with operators between them are read as one expression. Its tree is split at the last one
of the operators of the lowest level, and so are its parts. Within an operand suffixes bind tighter
than prefix operators.
-/

namespace ExprLang

/-- The levels of the operators between operands, from the one that binds least. -/
def Kind.level : Kind → Nat
  | .equal | .notEqual => 0
  | .less | .greater | .atMost | .atLeast => 1
  | .plus | .minus => 2
  | .star | .slash => 3
  | _ => 4

/-- The order of the levels is that of the precedences. -/
theorem Kind.rank_lt_rank_iff {k k' : Kind} (h : k.isBinary = true) (h' : k'.isBinary = true) :
    k.precedence.rank < k'.precedence.rank ↔ k.level < k'.level := by
  have hlevel : ∀ k : Kind, k.isBinary = true → k.precedence.rank = k.level + 2 := by
    intro k
    cases k <;> simp [Kind.isBinary, Kind.precedence, Kind.precedence?, Precedence.rank, Kind.level]
  rw [hlevel k h, hlevel k' h']
  omega

namespace Chain

open Node (WellFormed)

/-- What may follow an expression within an operand. -/
inductive Suffix where
  /-- The arguments of a call. -/
  | call (arguments : List Node) (wellFormed : ∀ n ∈ arguments, WellFormed .expression n)
  /-- An index. -/
  | index (position : Node) (wellFormed : WellFormed .expression position)

namespace Suffix

/-- The text of a suffix. -/
def text : Suffix → String
  | .call arguments _ => "(" ++ ", ".intercalate (Node.printAll arguments) ++ ")"
  | .index position _ => "[" ++ position.print ++ "]"

/-- The tree of a suffix behind a tree. -/
def apply (e : Node) : Suffix → Node
  | .call arguments _ => .call e arguments Span.nowhere
  | .index position _ => .index e position Span.nowhere

/-- The tokens of a suffix. -/
def tokens : Suffix → List Token
  | .call arguments _ => Node.parenthesized (Node.commaSeparated (Node.tokensAll arguments))
  | .index position _ =>
      Kind.leftBracket.token :: position.tokens ++ [Kind.rightBracket.token]

end Suffix

/-- A prefix operator. -/
abbrev Sign := { k : Kind // k.isUnary = true }

/-- An operator between operands. -/
abbrev Operator := { k : Kind // k.isBinary = true }

/-- Prefix operators, an expression and suffixes. -/
structure Operand where
  signs : List Sign
  base : Node
  suffixes : List Suffix
  wellFormed : WellFormed .expression base

namespace Operand

/-- The text of an expression with suffixes behind it. -/
def suffixedText (base : String) (suffixes : List Suffix) : String :=
  suffixes.foldl (fun text x => text ++ x.text) base

/-- The text of an operand. -/
def text (u : Operand) : String :=
  u.signs.foldr (fun sign text => sign.1.text ++ text) (suffixedText u.base.print u.suffixes)

/-- The tree of an operand: suffixes from left to right, then prefix operators from right to
left. -/
def tree (u : Operand) : Node :=
  u.signs.foldr (fun sign e => .unary sign.1.token e Span.nowhere)
    (u.suffixes.foldl Suffix.apply u.base)

/-- The tokens of an operand. -/
def tokens (u : Operand) : List Token :=
  u.signs.map (fun sign => sign.1.token) ++ (u.base.tokens ++ u.suffixes.flatMap Suffix.tokens)

end Operand

/-- The text of a chain: operands and operators with blanks between them. -/
def text (first : Operand) (rest : List (Operator × Operand)) : String :=
  " ".intercalate (first.text :: rest.flatMap fun x => [x.1.1.text, x.2.text])

/-- The tokens of a chain. -/
def tokens (first : Operand) (rest : List (Operator × Operand)) : List Token :=
  first.tokens ++ rest.flatMap fun x => x.1.1.token :: x.2.tokens

/-! ### Scanning -/

open Token (Scans)
open Lexeme (separates)

theorem scans_suffixes {a : String} {ts : List Token} (h : Scans separates a ts)
    (suffixes : List Suffix) :
    Scans separates (Operand.suffixedText a suffixes) (ts ++ suffixes.flatMap Suffix.tokens) := by
  induction suffixes generalizing a ts with
  | nil => simpa [Operand.suffixedText] using h
  | cons x rest ih =>
      have hx : Scans separates (a ++ x.text) (ts ++ x.tokens) := by
        cases x with
        | call arguments hw =>
            have hall := Node.scans_arguments h fun n hn => Node.scans_print (hw n hn)
            simpa [Suffix.text, Suffix.tokens, String.append_assoc] using hall
        | index position hw =>
            have hall := Node.scans_position h (Node.scans_print hw)
            simpa [Suffix.text, Suffix.tokens, String.append_assoc] using hall
      simpa [Operand.suffixedText] using ih hx

theorem opens_suffixedText {a : String} (h : Node.opens a.toList = true) (suffixes : List Suffix) :
    Node.opens (Operand.suffixedText a suffixes).toList = true := by
  induction suffixes generalizing a with
  | nil => exact h
  | cons x rest ih =>
      apply ih
      rw [String.toList_append]
      exact Node.opens_append h _

theorem opens_sign {k : Kind} (h : k.isUnary = true) (rest : List Char) :
    Node.opens (k.text.toList ++ rest) = true := by
  cases k <;> simp only [Kind.isUnary, Bool.false_eq_true] at h <;> rfl

/-- The text of an operand scans to its tokens, and it starts as that of an operand. -/
theorem scans_operand (u : Operand) :
    Scans separates u.text u.tokens ∧ Node.opens u.text.toList = true := by
  obtain ⟨signs, base, suffixes, hw⟩ := u
  simp only [Operand.text, Operand.tokens]
  induction signs with
  | nil =>
      exact ⟨scans_suffixes (Node.scans_print hw) suffixes,
        opens_suffixedText (Node.opens_print hw) suffixes⟩
  | cons sign rest ih =>
      obtain ⟨hs, ho⟩ := ih
      have hsign := Node.scans_unary sign.2
      refine ⟨hsign.append hs fun rest _ => Node.opens_append ho rest, ?_⟩
      rw [List.foldr_cons, String.toList_append]
      exact opens_sign sign.2 _

/-- The text of a chain scans to its tokens. -/
theorem scans_text (first : Operand) (rest : List (Operator × Operand)) :
    Scans separates (text first rest) (tokens first rest) := by
  induction rest generalizing first with
  | nil => simpa [text, tokens] using (scans_operand first).1
  | cons x rest ih =>
      have hfirst := (scans_operand first).1.append Node.scans_space fun _ _ => rfl
      have ho := (hfirst.append (Node.scans_binary x.1.2) fun _ _ => rfl).append Node.scans_space
        fun _ _ => rfl
      have hall := ho.append (ih x.2) fun _ _ => rfl
      simpa [text, tokens, String.intercalate_cons_cons, String.append_assoc] using hall

/-! ### Reading -/

open Grammar (Derives Grouped)

theorem readable_suffix (x : Suffix) : Token.Readable x.tokens := by
  cases x with
  | call arguments hw =>
      have ha := Node.readable_tokensAll fun n hn => Node.readable_bareTokens (hw n hn)
      simp [Suffix.tokens, ha]
  | index position hw => simp [Suffix.tokens, Node.readable_bareTokens hw]

theorem readable_operand (u : Operand) : Token.Readable u.tokens := by
  have hs : Token.Readable (u.signs.map fun sign => sign.1.token) := by
    intro t ht hk
    obtain ⟨⟨k, hu⟩, -, rfl⟩ := List.mem_map.mp ht
    rw [show k = .integer from hk] at hu
    cases hu
  have hx : Token.Readable (u.suffixes.flatMap Suffix.tokens) := by
    intro t ht
    obtain ⟨x, -, ht⟩ := List.mem_flatMap.mp ht
    exact readable_suffix x t ht
  simp only [Operand.tokens, Token.readable_append, Node.readable_tokens]
  exact ⟨hs, Node.readable_bareTokens u.wellFormed, hx⟩

/-- Every integer of a chain can be read. -/
theorem readable_tokens (first : Operand) (rest : List (Operator × Operand)) :
    Token.Readable (tokens first rest) := by
  refine (Token.readable_append _ _).mpr ⟨readable_operand first, fun t ht hk => ?_⟩
  obtain ⟨⟨⟨k, hb⟩, u⟩, -, ht⟩ := List.mem_flatMap.mp ht
  rcases List.mem_cons.mp ht with rfl | ht
  · rw [show k = .integer from hk] at hb
    cases hb
  · exact readable_operand u t ht hk

/-- Suffixes are applied from left to right. -/
theorem derives_suffixes {e : Node} {ts us : List Token} (suffixes : List Suffix)
    (h : Derives .suffixed ts (suffixes.flatMap Suffix.tokens ++ us) e.unplaced) :
    Derives .suffixed ts us (suffixes.foldl Suffix.apply e).unplaced := by
  induction suffixes generalizing e with
  | nil => exact h
  | cons x rest ih =>
      apply ih
      rw [List.flatMap_cons, List.append_assoc] at h
      cases x with
      | call arguments hw =>
          have ha : ∀ n ∈ arguments, Grammar.Written n := fun n hn => Grammar.writtenAt (hw n hn)
          simp only [Suffix.tokens, Node.parenthesized, List.cons_append, List.append_assoc] at h
          rw [Suffix.apply, Node.unplaced]
          exact .call h rfl (Grammar.derives_list ha _)
      | index position hw =>
          have hi : Grammar.Written position := Grammar.writtenAt hw
          simp only [Suffix.tokens, List.cons_append, List.append_assoc] at h
          rw [Suffix.apply, Node.unplaced]
          exact .index h rfl (hi.expression _) rfl

theorem derives_operand (u : Operand) (us : List Token) :
    Derives .operand (u.tokens ++ us) us u.tree.unplaced := by
  obtain ⟨signs, base, suffixes, hw⟩ := u
  have hbase : Grammar.Written base := Grammar.writtenAt hw
  simp only [Operand.tokens, Operand.tree, List.append_assoc]
  induction signs with
  | nil => exact .suffixed (derives_suffixes suffixes (hbase.suffixed _))
  | cons sign rest ih =>
      rw [List.foldr_cons, Node.unplaced]
      exact .unary sign.2 ih

/-- The operators of a chain with the trees behind them. -/
def parts (rest : List (Operator × Operand)) : List (Token × Node) :=
  rest.map fun x => (x.1.1.token, x.2.tree)

theorem derives_parts (rest : List (Operator × Operand)) (us : List Token) :
    Derives .chain (rest.flatMap (fun x => x.1.1.token :: x.2.tokens) ++ us) us
      ((parts rest).map fun x => (x.1.unplaced, x.2.unplaced)) := by
  induction rest with
  | nil => exact .noOperator
  | cons x rest ih =>
      rw [List.flatMap_cons, List.append_assoc]
      exact .chain x.1.2 (derives_operand x.2 _) ih

/-- The tree of a chain is that of a program of one expression. -/
theorem program_tokens {first : Operand} {rest : List (Operator × Operand)} {tree : Node}
    (h : Grouped (fun t => t.kind.level) first.tree (parts rest) tree) :
    Grammar.Program (tokens first rest) [.evaluated tree.unplaced Span.nowhere] := by
  have hbinary : ∀ x ∈ parts rest, x.1.kind.isBinary = true := by
    intro x hx
    obtain ⟨⟨⟨k, hb⟩, u⟩, -, rfl⟩ := List.mem_map.mp hx
    exact hb
  -- Levels and precedences are different numbers, but they order the operators alike.
  have hg : Grouped Token.rank first.tree (parts rest) tree :=
    h.congr fun x hx y hy => (Kind.rank_lt_rank_iff (hbinary x hx) (hbinary y hy)).symm
  have he : Derives .expression (tokens first rest) [] tree.unplaced := by
    have hp := derives_parts rest []
    rw [List.append_nil] at hp
    exact .expression (derives_operand first _) hp (hg.unplaced fun _ => rfl)
  exact .statements (.unended (.evaluated he) (by decide)) .noStatement

end Chain

/-- A chain of operators is read without a diagnostic as one expression. Its tree is the only one
that is split at the last one of the operators of the lowest level, and so on in both parts. -/
theorem parseWithin_chain (first : Chain.Operand) (rest : List (Chain.Operator × Chain.Operand))
    (depth : Nat) :
    ∃ parsed tree, parseWithin depth (Chain.text first rest) = .ok parsed ∧
      (∀ e, Grammar.Grouped (fun t => t.kind.level) first.tree (Chain.parts rest) e ↔ e = tree) ∧
      (2 * (Token.ofProgram (Chain.text first rest)).length + 1 < depth → parsed.WithinLimit) ∧
      (parsed.WithinLimit → parsed.diagnostics = [] ∧
        parsed.tree.sameAs (.program [.evaluated tree Span.nowhere] Span.nowhere) = true) := by
  obtain ⟨tree, htree⟩ := Grammar.Grouped.exists_tree first.tree (Chain.parts rest)
  obtain ⟨parsed, hread, hsame⟩ := reads_of_scans (Chain.scans_text first rest)
    (Chain.readable_tokens first rest) (Chain.program_tokens htree) depth
  refine ⟨parsed, tree, hread, fun e => ⟨fun he => he.unique htree, fun he => he ▸ htree⟩,
    TokenStream.withinLimit_of_lt hread, fun hl => ?_⟩
  obtain ⟨hd, ht⟩ := hsame hl
  exact ⟨hd, (Node.sameAs_iff _ _).mpr (ht.trans (by simp [Node.unplaced, Node.unplacedAll]))⟩

end ExprLang
