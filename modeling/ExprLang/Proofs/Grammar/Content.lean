import ExprLang.Proofs.Parsing.Correct

/-!
# No token is lost

A program that is read without a diagnostic and the text of its tree have the same tokens in the
same order, apart from those that only group or end something and from leading zeros.

## Implementation notes

Both texts are derived as the same tree, so it is enough to say for every phrase which tokens its
tree stands for.
-/

namespace ExprLang

namespace Token

/-- What a token says, unless it only groups or ends something. Integers are told by their value. -/
def said? (t : Token) : Option (String × Kind) :=
  match t.kind with
  | .leftParen | .rightParen | .semicolon | .rightBrace | .endOfInput => none
  | .integer => some (toString (Text.decimal t.text), .integer)
  | k => some (t.text, k)

/-- What tokens say one after the other. -/
def content (ts : List Token) : List (String × Kind) :=
  ts.filterMap said?

@[simp] theorem content_nil : content [] = [] := rfl

@[simp] theorem content_cons (t : Token) (ts : List Token) :
    content (t :: ts) = t.said?.toList ++ content ts := by
  cases h : t.said? <;> simp [content, h]

@[simp] theorem content_append (ts us : List Token) :
    content (ts ++ us) = content ts ++ content us :=
  List.filterMap_append

@[simp] theorem said?_unplaced (t : Token) : t.unplaced.said? = t.said? := rfl

theorem content_map_unplaced (ts : List Token) : content (ts.map unplaced) = content ts := by
  rw [content, List.filterMap_map]
  rfl

/-- A token of a fixed text says what its kind says. -/
theorem Scanned.said?_eq {t : Token} {k : Kind} (h : t.Scanned) (hk : t.kind = k)
    (hf : k.hasFixedText = true) : t.said? = k.token.said? := by
  subst hk
  rw [← said?_unplaced, unplaced_eq_token (h.text_eq hf)]

/-- The kinds whose tokens only group or end something say nothing. -/
@[simp] theorem said?_token_eq_none {k : Kind}
    (h : k ∈ [.leftParen, .rightParen, .semicolon, .rightBrace]) : k.token.said? = none := by
  revert k
  decide

theorem said?_of_identifier {t : Token} (hk : t.kind = .identifier) :
    t.said? = (Token.named t.text).said? := by
  simp [said?, hk, named]

end Token

namespace Node

open Token (content)

@[simp] theorem content_parenthesized (ts : List Token) :
    content (parenthesized ts) = content ts := by
  simp [parenthesized]

@[simp] theorem content_tokens (n : Node) : content n.tokens = content n.bareTokens := by
  cases ho : n.isOperation with
  | true => rw [tokens_eq_parenthesized ho, content_parenthesized]
  | false => rw [tokens_eq_bareTokens ho]

@[simp] theorem content_statementTokens (ns : List Node) :
    content (statementTokens ns) = ns.flatMap fun n => content n.bareTokens := by
  induction ns with
  | nil => rfl
  | cons n rest ih =>
      cases rest with
      | nil => simp [statementTokens]
      | cons next rest =>
          have ht : content (terminatorTokens n) = [] := by
            unfold terminatorTokens
            split <;> rfl
          simp [statementTokens, ht, ih]

theorem content_commaSeparated_cons (n : Node) (ns : List Node) :
    content (commaSeparated (tokensAll (n :: ns))) =
      content n.bareTokens ++ content ((tokensAll ns).flatMap (Kind.comma.token :: ·)) := by
  simp [tokensAll, commaSeparated]

end Node

namespace Grammar

open Node (bareTokens commaSeparated tokensAll)
open Token (content Scanned)

/-- What the tokens before some of the tokens say, if they stand in a text. -/
def Says (ts us : List Token) (c : List (String × Kind)) : Prop :=
  ∃ read, ts = read ++ us ∧ ((∀ t ∈ read, t.Scanned) → content read = c)

namespace Says

variable {ts us vs : List Token} {t : Token} {k : Kind} {c d : List (String × Kind)}

theorem nothing (ts : List Token) : Says ts ts [] :=
  ⟨[], rfl, fun _ => rfl⟩

theorem append (h : Says ts us c) (h' : Says us vs d) : Says ts vs (c ++ d) := by
  obtain ⟨read, rfl, hr⟩ := h
  obtain ⟨more, rfl, hm⟩ := h'
  refine ⟨read ++ more, by simp, fun hs => ?_⟩
  rw [List.forall_mem_append] at hs
  rw [Token.content_append, hr hs.1, hm hs.2]

theorem single (h : t.Scanned → t.said?.toList = c) : Says (t :: ts) ts c := by
  refine ⟨[t], rfl, fun hs => ?_⟩
  rw [List.forall_mem_singleton] at hs
  rw [← h hs]
  simp

theorem fixed (hk : t.kind = k) (hf : k.hasFixedText = true) :
    Says (t :: ts) ts k.token.said?.toList :=
  single fun hs => by rw [hs.said?_eq hk hf]

theorem name (hk : t.kind = .identifier) :
    Says (t :: ts) ts (Token.named t.text).said?.toList :=
  single fun _ => by rw [Token.said?_of_identifier hk]

/-- A token that says nothing may stand before. -/
theorem after (hk : t.kind = k) (hf : k.hasFixedText = true) (he : k.token.said? = none)
    (h : Says ts us c) : Says (t :: ts) us c := by
  have h := (fixed hk hf).append h
  rwa [he] at h

/-- A token that says nothing may stand behind. -/
theorem before (h : Says ts (t :: us) c) (hk : t.kind = k) (hf : k.hasFixedText = true)
    (he : k.token.said? = none) : Says ts us c := by
  have h := h.append (fixed hk hf)
  rwa [he, Option.toList_none, List.append_nil] at h

end Says

/-- The tree of a chain stands for the tokens of its operands and operators. -/
theorem Grouped.content {rank : Token → Nat} {first e : Node} {rest : List (Token × Node)}
    (h : Grouped rank first rest e) :
    content e.bareTokens =
      content first.bareTokens ++ content (rest.flatMap fun x => x.1 :: x.2.bareTokens) := by
  induction h with
  | single first => simp
  | @split first left operand right operator before after hb ha hl hr ihl ihr =>
      simp [bareTokens, ihl, ihr]

/-- What the tree of a phrase stands for is what its tokens say. -/
def StandsFor : (n : Phrase) → n.Tree → List Token → List Token → Prop
  | .statements, ns, ts, us => Says ts us (content (Node.statementTokens ns))
  | .chain, rest, ts, us => Says ts us (content (rest.flatMap fun x => x.1 :: x.2.bareTokens))
  | .list closing, es, ts, us => closing.hasFixedText = true →
      Says ts us (content (commaSeparated (tokensAll es) ++ [closing.token]))
  | .more, es, ts, us => Says ts us (content ((tokensAll es).flatMap (Kind.comma.token :: ·)))
  | .parameters, names, ts, us =>
      Says ts us (content (commaSeparated (names.map fun p => [Token.named p.text])))
  | .moreParameters, names, ts, us =>
      Says ts us
        (content ((names.map fun p => [Token.named p.text]).flatMap (Kind.comma.token :: ·)))
  | .statement, n, ts, us | .unended, n, ts, us | .block, n, ts, us | .expression, n, ts, us
  | .operand, n, ts, us | .suffixed, n, ts, us | .primary, n, ts, us =>
      Says ts us (content n.bareTokens)

/-- A derivation takes up the tokens that its tree stands for. -/
theorem Derives.standsFor {n : Phrase} {ts us : List Token} {t : n.Tree} (h : Derives n ts us t) :
    StandsFor n t ts us := by
  induction h with
  | noStatement | noOperator | noMore | noMoreParameters => exact Says.nothing _
  | statements h hs ih ihs => simpa [StandsFor] using ih.append ihs
  | ended h hk ih => exact ih.before hk rfl rfl
  | unended h hf ih => exact ih
  | letBinding hw hn ha hv ih =>
      have hs := (Says.fixed hw rfl).append ((Says.name hn).append ((Says.fixed ha rfl).append ih))
      simpa [StandsFor, bareTokens, nameOf] using hs
  | returning hw hv ih => simpa [StandsFor, bareTokens] using (Says.fixed hw rfl).append ih
  | evaluated he ih => simpa [StandsFor, bareTokens] using ih
  | closedBlock ho hs hc ih =>
      simpa [StandsFor, bareTokens] using (Says.fixed ho rfl).append (ih.before hc rfl rfl)
  | openBlock ho hs ih => simpa [StandsFor, bareTokens] using (Says.fixed ho rfl).append ih
  | expression hf hr hg ih ihr =>
      rw [StandsFor, hg.content]
      exact ih.append ihr
  | @chain operator ts us vs operand rest hk ho hr ih ihr =>
      have hs : Says (operator :: ts) ts operator.said?.toList := Says.single fun _ => rfl
      simpa [StandsFor] using hs.append (ih.append ihr)
  | @unary operator ts us operand hk ho ih =>
      have hs : Says (operator :: ts) ts operator.said?.toList := Says.single fun _ => rfl
      simpa [StandsFor, bareTokens] using hs.append ih
  | suffixed h ih => exact ih
  | primary h ih => exact ih
  | call hf ho ha ih iha =>
      simpa [StandsFor, bareTokens] using ih.append ((iha rfl).after ho rfl rfl)
  | index hl ho hi hc ih ihi =>
      have hs := ih.append ((Says.fixed ho rfl).append (ihi.append (Says.fixed hc rfl)))
      simpa [StandsFor, bareTokens] using hs
  | identifier hk => simpa [StandsFor, bareTokens] using Says.name hk
  | @integer t ts hk ht hv =>
      have hd : Text.decimal (Text.decimal t.text : Int).repr = Text.decimal t.text :=
        Text.decimal_repr _
      exact Says.single fun _ => by simp [bareTokens, Token.said?, hk, hd]
  | boolean hk =>
      rcases hk with hk | hk <;> simpa [StandsFor, bareTokens, hk] using Says.fixed hk rfl
  | grouped ho he hc ih => exact (ih.before hc rfl rfl).after ho rfl rfl
  | array ho he ih => simpa [StandsFor, bareTokens] using (Says.fixed ho rfl).append (ih rfl)
  | ifThen hw ho hc hk ht ihc iht =>
      have hs := (Says.fixed hw rfl).append (((ihc.before hk rfl rfl).after ho rfl rfl).append iht)
      simpa [StandsFor, bareTokens] using hs
  | ifElse hw ho hc hk ht he hf ihc iht ihf =>
      have hs := (Says.fixed hw rfl).append (((ihc.before hk rfl rfl).after ho rfl rfl).append
        (iht.append ((Says.fixed he rfl).append ihf)))
      simpa [StandsFor, bareTokens] using hs
  | function hw ho hp hb ihp ihb =>
      have hs := (Says.fixed hw rfl).append ((ihp.after ho rfl rfl).append ihb)
      simpa [StandsFor, bareTokens] using hs
  | emptyList hc =>
      intro hf
      simpa [commaSeparated, tokensAll] using Says.fixed hc hf
  | list he hm hc ih ihm =>
      intro hf
      rw [Token.content_append, Node.content_commaSeparated_cons]
      simpa using ih.append (ihm.append (Says.fixed hc hf))
  | more hk he hm ih ihm =>
      simpa [StandsFor, tokensAll] using (Says.fixed hk rfl).append (ih.append ihm)
  | noParameters hc => exact (Says.nothing _).after hc rfl rfl
  | parameters hn hm hc ih =>
      have hs := (Says.name hn).append (ih.before hc rfl rfl)
      simpa [StandsFor, commaSeparated, nameOf] using hs
  | moreParameters hk hn hm ih =>
      have hs := (Says.fixed hk rfl).append ((Says.name hn).append ih)
      simpa [StandsFor, nameOf] using hs

end Grammar

/-- The tokens of a program without a diagnostic say what its tree stands for. -/
theorem content_scan {depth : Nat} {program : String} {parsed : Parsed}
    (h : parseWithin depth program = .ok parsed) (hd : parsed.diagnostics = []) :
    ∃ ns, parsed.tree.unplaced = .program ns Span.nowhere ∧
      Token.content (Token.scan program) = Token.content (Node.statementTokens ns) := by
  obtain ⟨ns, hn⟩ := Grammar.program_of_parsed h hd
  have hl : parsed.WithinLimit := fun d hm => by simp [hd] at hm
  refine ⟨ns, (hn.parsed h hl).2, ?_⟩
  obtain ⟨read, hr, hs⟩ := Grammar.Derives.standsFor hn
  rw [List.append_nil] at hr
  have hscanned : ∀ t ∈ read, t.Scanned := by
    rw [← hr, List.forall_mem_map]
    exact fun t ht => show t.Scanned from Token.scanned_ofProgram ht
  rw [Token.scan, ← hs hscanned, ← hr, Token.content_map_unplaced, Token.content_append]
  exact List.append_nil _

/-- A program that is read without a diagnostic has the tokens of the text of its tree in the same
order, apart from parentheses, semicolons and closing braces and from leading zeros. -/
theorem content_scan_print {depth limit : Nat} {program text : String} {parsed : Parsed}
    (h : parseWithin depth program = .ok parsed) (hd : parsed.diagnostics = [])
    (hp : parsed.tree.printWithin limit = some text) :
    Token.content (Token.scan program) = Token.content (Token.scan text) := by
  obtain ⟨ns, hn, hprogram⟩ := content_scan h hd
  obtain ⟨again, hread, hlimit, hsame⟩ := reads_printWithin (wellFormed_of_parseWithin h) hp
    (2 * (Token.ofProgram text).length + 2)
  obtain ⟨hnone, htree⟩ := hsame (hlimit (by omega))
  obtain ⟨ns', hn', htext⟩ := content_scan hread hnone
  have hns : ns' = ns := by
    rw [hn', hn] at htree
    injection htree
  rw [hprogram, htext, hns]

/-- Redundant parentheses and zeros, a semicolon that is missing and a block that is not closed. -/
theorem content_scan_print_redundant :
    ∃ parsed, parseWithin 60 "(f)((a), 007); [-b] if (!c) \x7b (d)" = .ok parsed ∧
      parsed.diagnostics = [] ∧
      parsed.tree.printWithin 9 = some "f(a, 7); [(-b)]; if (!c) { d }" ∧
      Token.content (Token.scan "(f)((a), 007); [-b] if (!c) \x7b (d)") =
        Token.content (Token.scan "f(a, 7); [(-b)]; if (!c) { d }") := by
  obtain ⟨parsed, h, hd, hp⟩ :
      ∃ parsed, parseWithin 60 "(f)((a), 007); [-b] if (!c) \x7b (d)" = .ok parsed ∧
        parsed.diagnostics = [] ∧
        parsed.tree.printWithin 9 = some "f(a, 7); [(-b)]; if (!c) { d }" :=
    ⟨_, rfl, rfl, rfl⟩
  exact ⟨parsed, h, hd, hp, content_scan_print h hd hp⟩

end ExprLang
