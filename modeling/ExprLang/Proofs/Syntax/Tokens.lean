import ExprLang.Proofs.Syntax.WellFormed
import ExprLang.Proofs.Text.Numeral
import ExprLang.Syntax.Printer

/-!
# The tokens of the text of a tree

The tokens that the text of a tree consists of are told from the tree alone.

## Implementation notes

An operation stands in parentheses wherever it is written, and a condition always does. So the
tokens are defined without the parentheses of an operation, `bareTokens`, and `enclosed` adds them.
-/

namespace ExprLang

/-- The token of an identifier. -/
def Token.named (text : String) : Token :=
  ⟨text, .identifier, Span.nowhere⟩

namespace Token

/-- A token with the text of its kind is told from the kind. -/
theorem unplaced_eq_token {t : Token} (h : t.text = t.kind.text) : t.unplaced = t.kind.token := by
  rw [Token.unplaced, Kind.token, h]

/-- Tokens of which those that are integers can be read. -/
def Readable (ts : List Token) : Prop :=
  ∀ t ∈ ts, t.kind = .integer → ∃ value, Text.readInt t.text = .ok value

variable {ts : List Token}

@[simp] theorem readable_nil : Readable [] := by
  simp [Readable]

@[simp] theorem readable_append (ts us : List Token) :
    Readable (ts ++ us) ↔ Readable ts ∧ Readable us :=
  List.forall_mem_append

/-- A token that is no integer does not matter. -/
theorem readable_cons {t : Token} (h : t.kind ≠ .integer) : Readable (t :: ts) ↔ Readable ts := by
  simp [Readable, h]

@[simp] theorem readable_token_cons {k : Kind} (h : k ≠ .integer) :
    Readable (k.token :: ts) ↔ Readable ts :=
  readable_cons h

@[simp] theorem readable_named_cons (text : String) :
    Readable (Token.named text :: ts) ↔ Readable ts :=
  readable_cons (by simp [Token.named])

theorem readable_operator {o : Token} (h : o.IsUnary ∨ o.IsBinary) :
    Readable (o.unplaced :: ts) ↔ Readable ts := by
  apply readable_cons
  intro hk
  have hk : o.kind = .integer := hk
  rcases h with ⟨h, -⟩ | ⟨h, -⟩ <;> simp [hk, Kind.isUnary, Kind.isBinary] at h

/-- Places do not matter. -/
theorem readable_map_unplaced (ts : List Token) : Readable (ts.map unplaced) ↔ Readable ts :=
  List.forall_mem_map

end Token

namespace Node

/-- Tokens in parentheses. -/
def parenthesized (ts : List Token) : List Token :=
  Kind.leftParen.token :: ts ++ [Kind.rightParen.token]

/-- The tokens of a tree in parentheses if it is an operation. -/
def enclosed (n : Node) (ts : List Token) : List Token :=
  if n.isOperation then parenthesized ts else ts

/-- Tokens with a comma between any two parts. -/
def commaSeparated : List (List Token) → List Token
  | [] => []
  | ts :: rest => ts ++ rest.flatMap (Kind.comma.token :: ·)

/-- The tokens that end a statement that is not the last one, apart from its own. -/
def terminatorTokens (statement : Node) : List Token :=
  if statement.isEvaluated then [Kind.semicolon.token] else []

mutual

/-- The tokens of the text of a tree without the parentheses of an operation. -/
def bareTokens : Node → List Token
  | .program ss _ => statementTokens ss
  | .block ss _ => Kind.leftBrace.token :: statementTokens ss ++ [Kind.rightBrace.token]
  | .letBinding n v _ =>
      Kind.letWord.token :: Token.named n.text :: Kind.assign.token :: enclosed v v.bareTokens ++
        [Kind.semicolon.token]
  | .returning v _ =>
      Kind.returnWord.token :: enclosed v v.bareTokens ++ [Kind.semicolon.token]
  | .evaluated e _ => enclosed e e.bareTokens
  | .identifier n _ => [Token.named n]
  | .integer v _ => [⟨toString v, .integer, Span.nowhere⟩]
  | .boolean v _ => [(if v then Kind.trueWord else Kind.falseWord).token]
  | .array es _ =>
      Kind.leftBracket.token :: commaSeparated (tokensAll es) ++ [Kind.rightBracket.token]
  | .unary o e _ => o.unplaced :: enclosed e e.bareTokens
  | .binary l o r _ => enclosed l l.bareTokens ++ o.unplaced :: enclosed r r.bareTokens
  | .ifThen c t _ => Kind.ifWord.token :: parenthesized c.bareTokens ++ t.bareTokens
  | .ifElse c t e _ =>
      Kind.ifWord.token :: parenthesized c.bareTokens ++ t.bareTokens ++
        Kind.elseWord.token :: e.bareTokens
  | .function ps b _ =>
      Kind.funcWord.token ::
        parenthesized (commaSeparated (ps.map fun p => [Token.named p.text])) ++ b.bareTokens
  | .call f es _ => enclosed f f.bareTokens ++ parenthesized (commaSeparated (tokensAll es))
  | .index l i _ =>
      enclosed l l.bareTokens ++ Kind.leftBracket.token :: enclosed i i.bareTokens ++
        [Kind.rightBracket.token]
  | .placeholder _ => []

/-- The tokens of the texts of a list of trees. -/
def tokensAll : List Node → List (List Token)
  | [] => []
  | n :: rest => enclosed n n.bareTokens :: tokensAll rest

/-- The tokens of statements one after the other. -/
def statementTokens : List Node → List Token
  | [] => []
  | [s] => enclosed s s.bareTokens
  | s :: next :: rest =>
      enclosed s s.bareTokens ++ terminatorTokens s ++ statementTokens (next :: rest)

end

/-- The tokens of the text of a tree. -/
def tokens (n : Node) : List Token :=
  enclosed n n.bareTokens

theorem tokensAll_eq_map (ns : List Node) : tokensAll ns = ns.map tokens := by
  induction ns with
  | nil => rfl
  | cons n rest ih => simp [tokensAll, ih, tokens]

@[simp] theorem enclosed_bareTokens (n : Node) : enclosed n n.bareTokens = n.tokens := rfl

theorem tokens_eq_bareTokens {n : Node} (h : n.isOperation = false) :
    n.tokens = n.bareTokens := by
  simp [tokens, enclosed, h]

theorem tokens_eq_parenthesized {n : Node} (h : n.isOperation = true) :
    n.tokens = parenthesized n.bareTokens := by
  simp [tokens, enclosed, h]

theorem WellFormed.tokens_block {n : Node} (h : WellFormed .block n) :
    n.tokens = n.bareTokens := by
  cases h
  exact tokens_eq_bareTokens rfl

/-! ### Integers -/

open Token (Readable)

variable {ts : List Token}

@[simp] theorem readable_parenthesized : Readable (parenthesized ts) ↔ Readable ts := by
  simp [parenthesized]

@[simp] theorem readable_tokens (n : Node) : Readable n.tokens ↔ Readable n.bareTokens := by
  cases ho : n.isOperation with
  | true => rw [tokens_eq_parenthesized ho, readable_parenthesized]
  | false => rw [tokens_eq_bareTokens ho]

theorem readable_commaSeparated {tss : List (List Token)} (h : ∀ ts ∈ tss, Readable ts) :
    Readable (commaSeparated tss) := by
  cases tss with
  | nil => exact Token.readable_nil
  | cons ts rest =>
      simp only [List.forall_mem_cons] at h
      rw [commaSeparated, Token.readable_append]
      refine ⟨h.1, fun t ht => ?_⟩
      obtain ⟨us, hu, ht⟩ := List.mem_flatMap.mp ht
      exact (Token.readable_token_cons (by decide)).mpr (h.2 us hu) t ht

theorem readable_tokensAll {ns : List Node} (h : ∀ n ∈ ns, Readable n.bareTokens) :
    Readable (commaSeparated (tokensAll ns)) := by
  apply readable_commaSeparated
  rw [tokensAll_eq_map, List.forall_mem_map]
  exact fun n hn => (readable_tokens n).mpr (h n hn)

theorem readable_statementTokens {ns : List Node} (h : ∀ n ∈ ns, Readable n.bareTokens) :
    Readable (statementTokens ns) := by
  induction ns with
  | nil => exact Token.readable_nil
  | cons n rest ih =>
      simp only [List.forall_mem_cons] at h
      cases rest with
      | nil => exact (readable_tokens n).mpr h.1
      | cons next rest =>
          have hs : Readable (terminatorTokens n) := by
            unfold terminatorTokens
            split <;> simp
          simp [statementTokens, h.1, hs, ih h.2]

/-- Every integer in the text of a well-formed tree can be read. -/
theorem readable_bareTokens {role : Role} {n : Node} (h : WellFormed role n) :
    Readable n.bareTokens := by
  induction h with
  | program hs ih => simp [bareTokens, readable_statementTokens ih]
  | block hs ih => simp [bareTokens, readable_statementTokens ih]
  | letBinding hn hv ih => simp [bareTokens, ih]
  | returning hv ih => simp [bareTokens, ih]
  | evaluated he ih => simp [bareTokens, ih]
  | identifier hn => simp [bareTokens]
  | @integer value span h₀ h₁ =>
      obtain ⟨n, rfl⟩ := Int.eq_ofNat_of_zero_le h₀
      rw [bareTokens, Readable, List.forall_mem_singleton]
      exact fun _ => ⟨n, Text.readInt_repr (by omega)⟩
  | @boolean value => cases value <;> simp [bareTokens]
  | array he ih => simp [bareTokens, readable_tokensAll ih]
  | unary ho he ih => simp [bareTokens, Token.readable_operator (Or.inl ho), ih]
  | binary hl ho hr ihl ihr => simp [bareTokens, Token.readable_operator (Or.inr ho), ihl, ihr]
  | ifThen hc ht ihc iht => simp [bareTokens, ihc, iht]
  | ifElse hc ht hf ihc iht ihf => simp [bareTokens, ihc, iht, ihf]
  | @function parameters body span hp hb ih =>
      have hps : Readable (commaSeparated (parameters.map fun p => [Token.named p.text])) :=
        readable_commaSeparated (by simp)
      simp [bareTokens, hps, ih]
  | call hc ha ihc iha => simp [bareTokens, ihc, readable_tokensAll iha]
  | index hc hp ihc ihp => simp [bareTokens, ihc, ihp]

end Node

end ExprLang
