import ExprLang.Proofs.Grammar.Complete
import ExprLang.Proofs.Syntax.Scanning

/-!
# The grammar derives a tree from its text

The tokens of a well-formed tree make up a phrase, whatever follows them, and the tree of that
phrase is the tree itself apart from places. So a well-formed program is read from its own text.
-/

namespace ExprLang

namespace Grammar

open Node (WellFormed tokens bareTokens enclosed parenthesized commaSeparated)

variable {ts us : List Token} {e : Node}

/-- What is derived from the tokens of an expression: an operand with suffixes, and the same
without the parentheses of an operation. -/
structure Written (e : Node) : Prop where
  suffixed : ∀ us, Derives .suffixed (e.tokens ++ us) us e.unplaced
  bare : ∀ us, Derives .expression (e.bareTokens ++ us) us e.unplaced

theorem expression_of_operand (h : Derives .operand ts us e) : Derives .expression ts us e :=
  .expression h .noOperator (.single e)

theorem Written.operand (h : Written e) (us : List Token) :
    Derives .operand (e.tokens ++ us) us e.unplaced :=
  .suffixed (h.suffixed us)

theorem Written.expression (h : Written e) (us : List Token) :
    Derives .expression (e.tokens ++ us) us e.unplaced :=
  expression_of_operand (h.operand us)

/-- An expression that is no operation. -/
theorem Written.of_suffixed (ho : e.isOperation = false)
    (h : ∀ us, Derives .suffixed (e.bareTokens ++ us) us e.unplaced) : Written e where
  suffixed us := by
    rw [Node.tokens_eq_bareTokens ho]
    exact h us
  bare us := expression_of_operand (.suffixed (h us))

theorem derives_parenthesized (h : ∀ us, Derives .expression (ts ++ us) us e) (us : List Token) :
    Derives .primary (parenthesized ts ++ us) us e := by
  have hp : parenthesized ts ++ us =
      Kind.leftParen.token :: (ts ++ Kind.rightParen.token :: us) := by
    simp [parenthesized]
  rw [hp]
  exact .grouped rfl (h _) rfl

/-- An operation is written in parentheses. -/
theorem Written.of_bare (ho : e.isOperation = true)
    (h : ∀ us, Derives .expression (e.bareTokens ++ us) us e.unplaced) : Written e where
  suffixed us := by
    rw [Node.tokens_eq_parenthesized ho]
    exact .primary (derives_parenthesized h us)
  bare := h

/-! ### Lists -/

section Items

variable {α : Type} {items : List α} {tokensOf : α → List Token} {nodeOf : α → Node}

theorem derives_moreItems
    (h : ∀ x ∈ items, ∀ us, Derives .expression (tokensOf x ++ us) us (nodeOf x))
    (us : List Token) :
    Derives .more ((items.map tokensOf).flatMap (Kind.comma.token :: ·) ++ us) us
      (items.map nodeOf) := by
  induction items with
  | nil => exact .noMore
  | cons x rest ih =>
      simp only [List.forall_mem_cons] at h
      simp only [List.map_cons, List.flatMap_cons, List.cons_append, List.append_assoc]
      exact .more rfl (h.1 _) (ih h.2)

/-- Expressions with commas between them, up to a closing bracket. -/
theorem derives_items {k : Kind}
    (h : ∀ x ∈ items, ∀ us, Derives .expression (tokensOf x ++ us) us (nodeOf x))
    (us : List Token) :
    Derives (.list k) (commaSeparated (items.map tokensOf) ++ k.token :: us) us
      (items.map nodeOf) := by
  cases items with
  | nil => exact .emptyList rfl
  | cons x rest =>
      simp only [List.forall_mem_cons] at h
      simp only [List.map_cons, commaSeparated, List.append_assoc]
      exact .list (h.1 _) (derives_moreItems h.2 _) rfl

end Items

theorem derives_list {es : List Node} {k : Kind} (h : ∀ e ∈ es, Written e) (us : List Token) :
    Derives (.list k) (commaSeparated (Node.tokensAll es) ++ k.token :: us) us
      (Node.unplacedAll es) := by
  rw [Node.tokensAll_eq_map, Node.unplacedAll_eq_map]
  exact derives_items (fun e he => (h e he).expression) us

theorem derives_moreParameters (names : List Name) (us : List Token) :
    Derives .moreParameters
      ((names.map fun p => [Token.named p.text]).flatMap (Kind.comma.token :: ·) ++ us) us
      (names.map Name.unplaced) := by
  induction names with
  | nil => exact .noMoreParameters
  | cons p rest ih => exact .moreParameters rfl rfl ih

theorem derives_parameters (names : List Name) (us : List Token) :
    Derives .parameters
      (commaSeparated (names.map fun p => [Token.named p.text]) ++ Kind.rightParen.token :: us) us
      (names.map Name.unplaced) := by
  cases names with
  | nil => exact .noParameters rfl
  | cons p rest =>
      simp only [List.map_cons, commaSeparated, List.append_assoc]
      exact .parameters rfl (derives_moreParameters rest _) rfl

/-! ### Statements -/

/-- What is derived from the tokens of a statement: the statement without the semicolon that ends it
before another one, and the statement as the last one. -/
structure WrittenStatement (n : Node) : Prop where
  unended : ∃ ts, n.tokens ++ Node.terminatorTokens n = ts ++ [Kind.semicolon.token] ∧
    ∀ us, Derives .unended (ts ++ us) us n.unplaced
  last : ∀ us, leading us ∉ [.leftParen, .leftBracket, .minus] →
    Derives .statement (n.tokens ++ us) us n.unplaced

/-- A statement before another one. -/
theorem WrittenStatement.terminated {n : Node} (h : WrittenStatement n) (us : List Token) :
    Derives .statement (n.tokens ++ Node.terminatorTokens n ++ us) us n.unplaced := by
  obtain ⟨ts, hts, hu⟩ := h.unended
  rw [hts, List.append_assoc]
  exact .ended (hu _) rfl

/-- A statement that brings its own semicolon. -/
theorem WrittenStatement.of_ended {n : Node} (ts : List Token) (hn : n.isEvaluated = false)
    (hts : n.tokens = ts ++ [Kind.semicolon.token])
    (h : ∀ us, Derives .unended (ts ++ us) us n.unplaced) : WrittenStatement n := by
  refine ⟨⟨ts, by simp [hts, Node.terminatorTokens, hn], h⟩, fun us _ => ?_⟩
  rw [hts, List.append_assoc]
  exact .ended (h _) rfl

/-- An expression as a statement has a semicolon only before another statement. -/
theorem WrittenStatement.of_evaluated {span : Span} (h : Written e) :
    WrittenStatement (.evaluated e span) := by
  have hts : (Node.evaluated e span).tokens = e.tokens := by
    rw [Node.tokens_eq_bareTokens rfl, Node.bareTokens]
    rfl
  have hu : ∀ us, Derives .unended (e.tokens ++ us) us (Node.evaluated e span).unplaced := by
    intro us
    rw [Node.unplaced]
    exact .evaluated (h.expression us)
  refine ⟨⟨e.tokens, by rw [hts]; rfl, hu⟩, fun us hus => ?_⟩
  rw [hts]
  exact .unended (hu us) hus

theorem writtenStatement_letBinding {name : Name} {value : Node} {span : Span}
    (h : Written value) : WrittenStatement (.letBinding name value span) := by
  refine .of_ended (Kind.letWord.token :: Token.named name.text :: Kind.assign.token ::
    value.tokens) rfl ?_ fun us => ?_
  · rw [Node.tokens_eq_bareTokens rfl, Node.bareTokens]
    rfl
  · rw [Node.unplaced]
    exact .letBinding rfl rfl rfl (h.expression us)

theorem writtenStatement_returning {value : Node} {span : Span} (h : Written value) :
    WrittenStatement (.returning value span) := by
  refine .of_ended (Kind.returnWord.token :: value.tokens) rfl ?_ fun us => ?_
  · rw [Node.tokens_eq_bareTokens rfl, Node.bareTokens]
    rfl
  · rw [Node.unplaced]
    exact .returning rfl (h.expression us)

theorem derives_statements {ns : List Node} (h : ∀ n ∈ ns, WrittenStatement n) {us : List Token}
    (hus : leading us ∉ [.leftParen, .leftBracket, .minus]) :
    Derives .statements (Node.statementTokens ns ++ us) us (Node.unplacedAll ns) := by
  rw [Node.unplacedAll_eq_map]
  induction ns with
  | nil => exact .noStatement
  | cons n rest ih =>
      simp only [List.forall_mem_cons] at h
      cases rest with
      | nil => exact .statements (h.1.last us hus) .noStatement
      | cons next rest =>
          rw [Node.statementTokens, List.append_assoc]
          exact .statements (h.1.terminated _) (ih h.2)

theorem derives_block {ns : List Node} {span : Span} (h : ∀ n ∈ ns, WrittenStatement n)
    (us : List Token) :
    Derives .block ((Node.block ns span).bareTokens ++ us) us (Node.block ns span).unplaced := by
  rw [Node.bareTokens, Node.unplaced, List.append_assoc]
  exact .closedBlock rfl (derives_statements h (by simp [Kind.token])) rfl

/-! ### Expressions -/

theorem written_integer {value : Int} {span : Span} (h₀ : 0 ≤ value)
    (h₁ : value ≤ 9223372036854775807) :
    Written (.integer value span) := by
  refine .of_suffixed rfl fun us => .primary ?_
  obtain ⟨n, rfl⟩ := Int.eq_ofNat_of_zero_le h₀
  have hd : Text.decimal (toString (n : Int)) = n := Text.decimal_repr n
  have hi := @Derives.integer ⟨toString (n : Int), .integer, Span.nowhere⟩ us rfl
    (Node.isNumeral_toString h₀) (by rw [hd]; omega)
  rw [Node.bareTokens, Node.unplaced]
  simpa only [hd, List.singleton_append] using hi

theorem written_boolean (value : Bool) (span : Span) : Written (.boolean value span) := by
  refine .of_suffixed rfl fun us => .primary ?_
  cases value with
  | true => exact .boolean (Or.inl rfl)
  | false => exact .boolean (Or.inr rfl)

theorem written_unary {operator : Token} {operand : Node} {span : Span} (ho : operator.IsUnary)
    (h : Written operand) : Written (.unary operator operand span) := by
  refine .of_bare rfl fun us => ?_
  rw [Node.bareTokens, Node.unplaced]
  exact expression_of_operand (.unary ho.1 (h.operand us))

theorem written_binary {left right : Node} {operator : Token} {span : Span}
    (hl : Written left) (ho : operator.IsBinary) (hr : Written right) :
    Written (.binary left operator right span) := by
  refine .of_bare rfl fun us => ?_
  rw [Node.bareTokens, Node.unplaced, List.append_assoc]
  refine .expression (hl.operand _) (.chain ho.1 (hr.operand us) .noOperator) ?_
  exact .pair _ _ _

/-- What is derived from the tokens of a tree at its place. -/
def WrittenAt : Node.Role → Node → Prop
  | .program, n => ∃ ns, n.unplaced = .program ns Span.nowhere ∧ Program n.tokens ns
  | .block, n => ∀ us, Derives .block (n.bareTokens ++ us) us n.unplaced
  | .statement, n => WrittenStatement n
  | .expression, n => Written n

/-- A well-formed tree is derived from its tokens. -/
theorem writtenAt {role : Node.Role} {n : Node} (h : WellFormed role n) : WrittenAt role n := by
  induction h with
  | @program ns span hs ih =>
      refine ⟨Node.unplacedAll ns, by rw [Node.unplaced], ?_⟩
      rw [Node.tokens_eq_bareTokens rfl, Node.bareTokens, Program,
        ← List.append_nil (Node.statementTokens ns)]
      exact derives_statements ih (by decide)
  | block hs ih => exact derives_block ih
  | letBinding hn hv ih => exact writtenStatement_letBinding ih
  | returning hv ih => exact writtenStatement_returning ih
  | evaluated he ih => exact .of_evaluated ih
  | identifier hn => exact .of_suffixed rfl fun us => .primary (.identifier rfl)
  | integer h₀ h₁ => exact written_integer h₀ h₁
  | boolean => exact written_boolean _ _
  | array he ih =>
      refine .of_suffixed rfl fun us => .primary ?_
      rw [Node.bareTokens, Node.unplaced, List.append_assoc]
      exact .array rfl (derives_list ih us)
  | unary ho he ih => exact written_unary ho ih
  | binary hl ho hr ihl ihr => exact written_binary ihl ho ihr
  | ifThen hc ht ihc iht =>
      refine .of_suffixed rfl fun us => .primary ?_
      rw [Node.bareTokens, Node.unplaced, parenthesized]
      simp only [List.cons_append, List.append_assoc]
      exact .ifThen rfl rfl (ihc.bare _) rfl (iht us)
  | ifElse hc ht hf ihc iht ihf =>
      refine .of_suffixed rfl fun us => .primary ?_
      rw [Node.bareTokens, Node.unplaced, parenthesized]
      simp only [List.cons_append, List.append_assoc]
      exact .ifElse rfl rfl (ihc.bare _) rfl (iht _) rfl (ihf us)
  | function hp hb ih =>
      refine .of_suffixed rfl fun us => .primary ?_
      rw [Node.bareTokens, Node.unplaced, parenthesized]
      simp only [List.cons_append, List.append_assoc]
      exact .function rfl rfl (derives_parameters _ _) (ih us)
  | call hc ha ihc iha =>
      refine .of_suffixed rfl fun us => ?_
      rw [Node.bareTokens, Node.unplaced, parenthesized]
      simp only [List.cons_append, List.append_assoc]
      exact .call (ihc.suffixed _) rfl (derives_list iha us)
  | index hc hp ihc ihp =>
      refine .of_bare rfl fun us => expression_of_operand (.suffixed ?_)
      rw [Node.bareTokens, Node.unplaced]
      simp only [List.cons_append, List.append_assoc]
      exact .index (ihc.suffixed _) rfl (ihp.expression _) rfl

end Grammar

/-- A text whose tokens make up a program is read as that program. -/
theorem reads_of_scans {text : String} {ts : List Token} {ns : List Node}
    (hs : Token.Scans Lexeme.separates text ts) (hr : Token.Readable ts)
    (h : Grammar.Program ts ns) (depth : Nat) :
    ∃ parsed, parseWithin depth text = .ok parsed ∧
      (parsed.WithinLimit →
        parsed.diagnostics = [] ∧ parsed.tree.unplaced = .program ns Span.nowhere) := by
  have hts := hs.unplaced_ofProgram rfl
  rw [← hts] at h hr
  have hread : Token.Readable (TokenStream.ofProgram text).pending :=
    (Token.readable_map_unplaced _).mp hr
  obtain ⟨parsed, hp⟩ := TokenStream.exists_parseWithin depth hread
  exact ⟨parsed, hp, Grammar.Program.parsed h hp⟩

/-- A well-formed program is read from its own text, apart from places. -/
theorem reads_print {n : Node} (h : n.WellFormed .program) (depth : Nat) :
    ∃ parsed, parseWithin depth n.print = .ok parsed ∧
      (parsed.WithinLimit → parsed.diagnostics = [] ∧ parsed.tree.unplaced = n.unplaced) := by
  obtain ⟨ns, hn, hprogram⟩ := Grammar.writtenAt h
  rw [hn]
  have hr := (Node.readable_tokens n).mpr (Node.readable_bareTokens h)
  exact reads_of_scans (Node.scans_print h) hr hprogram depth

end ExprLang
