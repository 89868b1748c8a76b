import ExprLang.Proofs.Parsing.Program
import ExprLang.Proofs.Token.Scanned

/-!
# Trees that are read are well-formed

Whatever stands in a program, every tree that a rule returns is well-formed. A part that is missing
makes the rule return nothing, so it is in no tree, and what is kept of a token is of the form that
tokens of programs have.

## Implementation notes

The rules are followed along the states: which kind the current token has is known from the test
that led to the rule, and its text then from the form of tokens.
-/

namespace ExprLang

/-- All tokens from the current one on are as programs have them. -/
def ParseState.Scanned (s : ParseState) : Prop :=
  ∀ t ∈ s.stream.pending, t.Scanned

theorem ParseState.Scanned.next {s : ParseState} (h : s.Scanned) : s.next.Scanned :=
  fun t ht => h t (List.mem_of_mem_tail ht)

theorem ParseState.Scanned.token {s : ParseState} (h : s.Scanned)
    (hk : s.token.kind ≠ .endOfInput) : s.token.Scanned :=
  h _ (Parse.token_mem_pending hk)

theorem ParseState.Scanned.isIdentifier {s : ParseState} (h : s.Scanned)
    (hk : s.token.kind = .identifier) : Text.isIdentifier s.token.text = true := by
  have ht : s.token.Scanned := h.token (by simp [hk])
  simpa [Token.Scanned, hk] using ht

theorem ParseState.Scanned.isNumeral {s : ParseState} (h : s.Scanned)
    (hk : s.token.kind = .integer) : Text.isNumeral s.token.text = true :=
  (h.token (by simp [hk])).isNumeral hk

theorem ParseState.Scanned.isUnary {s : ParseState} (h : s.Scanned)
    (hk : s.token.kind.isUnary = true) : s.token.IsUnary := by
  have hf : s.token.kind.hasFixedText = true := by
    revert hk
    cases s.token.kind <;> simp [Kind.isUnary, Kind.hasFixedText]
  refine ⟨hk, (h.token ?_).text_eq hf⟩
  intro he
  simp [he, Kind.isUnary] at hk

theorem ParseState.Scanned.isBinary {s : ParseState} (h : s.Scanned)
    (hk : s.token.kind.isBinary = true) : s.token.IsBinary := by
  have hf : s.token.kind.hasFixedText = true := by
    revert hk
    cases s.token.kind <;> simp [Kind.isBinary, Kind.hasFixedText]
  refine ⟨hk, (h.token ?_).text_eq hf⟩
  intro he
  simp [he, Kind.isBinary] at hk

namespace Parse

open Node (WellFormed)

/-- The tree of a result, if there is one, is well-formed at its place. -/
def Fits (role : Node.Role) (result : Option Node) : Prop :=
  ∀ n ∈ result, WellFormed role n

theorem fits_none (role : Node.Role) : Fits role none := by
  simp [Fits]

section Builds

variable {α β : Type} {s : ParseState} {good : α → Prop}

/-- From a state in a program, a step comes to a state in it with a result of a certain form. -/
def BuildsAt (s : ParseState) (good : α → Prop) (step : Parse α) : Prop :=
  s.Scanned → Ends step s (fun a s' => s'.Scanned ∧ good a) anyFault

/-- A step whose results are of a certain form from every state in a program. -/
def Builds (good : α → Prop) (step : Parse α) : Prop :=
  ∀ s, BuildsAt s good step

theorem BuildsAt.pure {a : α} (h : s.Scanned → good a) : BuildsAt s good (pure a) :=
  fun hs => ⟨hs, h hs⟩

theorem BuildsAt.bind {good' : β → Prop} {step : Parse α} {f : α → Parse β}
    (h : BuildsAt s good step) (hf : ∀ a s', good a → BuildsAt s' good' (f a)) :
    BuildsAt s good' (step >>= f) := by
  intro hs
  refine (ends_bind step f).mpr (Ends.imp (h hs) ?_)
  rintro a s' ⟨hs', ha⟩
  exact hf a s' ha hs'

theorem BuildsAt.ite {p : Prop} [Decidable p] {step step' : Parse α}
    (h : p → BuildsAt s good step) (h' : ¬ p → BuildsAt s good step') :
    BuildsAt s good (if p then step else step') := by
  by_cases hp : p
  · rw [if_pos hp]; exact h hp
  · rw [if_neg hp]; exact h' hp

theorem BuildsAt.current {f : Token → Parse α} (h : BuildsAt s good (f s.token)) :
    BuildsAt s good (current >>= f) := h

theorem BuildsAt.peek {f : Token → Parse α} (h : BuildsAt s good (f s.next.token)) :
    BuildsAt s good (peek >>= f) := h

theorem BuildsAt.remaining {f : Nat → Parse α} (h : BuildsAt s good (f s.stream.pending.length)) :
    BuildsAt s good (remaining >>= f) := h

theorem BuildsAt.spanFrom {start : Token} {f : Span → Parse α}
    (h : ∀ span, BuildsAt s good (f span)) : BuildsAt s good (spanFrom start >>= f) := h _

theorem BuildsAt.advance {f : Unit → Parse α} (h : BuildsAt s.next good (f ())) :
    BuildsAt s good (advance >>= f) :=
  fun hs => h hs.next

theorem BuildsAt.currentName {f : Name → Parse α} (hk : s.token.kind = .identifier)
    (h : ∀ name : Name, Text.isIdentifier name.text = true → BuildsAt s good (f name)) :
    BuildsAt s good (currentName >>= f) :=
  fun hs => h ⟨s.token.text, s.token.span⟩ (hs.isIdentifier hk) hs

theorem BuildsAt.skipSemicolon {f : Unit → Parse α} (h : ∀ s, BuildsAt s good (f ())) :
    BuildsAt s good (skipSemicolon >>= f) := by
  intro hs
  rw [ends_bind, ends_skipSemicolon]
  split
  · exact h s.next hs.next
  · exact h s hs

theorem BuildsAt.expecting {good : Option α → Prop} {kind : Kind} {step : Parse (Option α)}
    (hn : good none) (h : s.next.token.kind = kind → BuildsAt s.next good step) :
    BuildsAt s good (expecting kind step) := by
  intro hs
  rw [ends_expecting]
  split
  · next hk => exact h hk hs.next
  · exact ⟨hs, hn⟩

end Builds

/-! ### Literals and names -/

theorem buildsAt_identifier {s : ParseState} (hk : s.token.kind = .identifier) :
    BuildsAt s (Fits .expression) identifier := by
  refine BuildsAt.current (BuildsAt.pure fun hs => ?_)
  rintro n ⟨⟩
  exact .identifier (hs.isIdentifier hk)

theorem builds_boolean : Builds (Fits .expression) boolean := by
  intro s
  refine BuildsAt.current (BuildsAt.pure fun _ => ?_)
  rintro n ⟨⟩
  exact .boolean

theorem buildsAt_integer {s : ParseState} (hk : s.token.kind = .integer) :
    BuildsAt s (Fits .expression) integer := by
  intro hs
  simp only [integer, ends_bind, ends_current]
  cases hv : Text.readInt s.token.text with
  | error reason => exact True.intro
  | ok value =>
      simp only [ends_ite, ends_bind, ends_complain, ends_pure]
      split
      · exact ⟨hs, fits_none _⟩
      · next hle =>
          refine ⟨hs, ?_⟩
          rintro n ⟨⟩
          have h₀ : 0 ≤ value := by
            rw [Text.eq_decimal_of_readInt (hs.isNumeral hk) hv]
            exact Int.natCast_nonneg _
          exact .integer h₀ (Int.not_lt.mp hle)

theorem allPresent_fits {results : List (Option Node)} {nodes : List Node}
    (h : ∀ result ∈ results, Fits .expression result) (ha : allPresent results = some nodes) :
    ∀ n ∈ nodes, WellFormed .expression n := by
  rw [eq_map_some_of_allPresent ha] at h
  intro n hn
  exact h (some n) (List.mem_map_of_mem hn) n rfl

section Rules

variable {expression : Precedence → Parse (Option Node)} {statement : Parse (Option Node)}
variable (he : ∀ precedence, Builds (Fits .expression) (expression precedence))
variable (hs : Builds (Fits .statement) statement)

/-! ### Lists -/

include he in
theorem builds_moreExpressions (rounds : Nat) :
    Builds (fun results => ∀ result ∈ results, Fits .expression result)
      (moreExpressions expression rounds) := by
  induction rounds with
  | zero => exact fun s => BuildsAt.pure (by simp)
  | succ rounds ih =>
      intro s
      refine BuildsAt.peek (BuildsAt.ite (fun _ => ?_) (fun _ => BuildsAt.pure (by simp)))
      refine BuildsAt.advance (BuildsAt.advance ?_)
      refine (he .lowest _).bind fun next s hn => ?_
      refine (ih s).bind fun rest s hr => BuildsAt.pure fun _ => ?_
      exact List.forall_mem_cons.mpr ⟨hn, hr⟩

include he in
theorem builds_expressionList (closing : Kind) :
    Builds (fun result => ∀ nodes ∈ result, ∀ n ∈ nodes, WellFormed .expression n)
      (expressionList expression closing) := by
  intro s
  refine BuildsAt.peek (BuildsAt.ite (fun _ => ?_) (fun _ => ?_))
  · exact BuildsAt.advance (BuildsAt.pure (by simp))
  · refine BuildsAt.advance ((he .lowest _).bind fun first s hf => BuildsAt.remaining ?_)
    refine (builds_moreExpressions he _ s).bind fun rest s hr => ?_
    refine BuildsAt.expecting (by simp) fun _ => BuildsAt.pure fun _ nodes hn => ?_
    exact allPresent_fits (List.forall_mem_cons.mpr ⟨hf, hr⟩) hn

theorem builds_moreParameters (rounds : Nat) :
    Builds (fun result => ∀ names ∈ result, ∀ p ∈ names, Text.isIdentifier p.text = true)
      (moreParameters rounds) := by
  induction rounds with
  | zero => exact fun s => BuildsAt.pure (by simp)
  | succ rounds ih =>
      intro s
      refine BuildsAt.peek (BuildsAt.ite (fun _ => ?_) (fun _ => BuildsAt.pure (by simp)))
      refine BuildsAt.advance (BuildsAt.expecting (by simp) fun hk => ?_)
      refine BuildsAt.currentName hk fun name hn => (ih _).bind fun rest s hr => ?_
      refine BuildsAt.pure fun _ names hm => ?_
      obtain ⟨names', hr', rfl⟩ := Option.map_eq_some_iff.mp hm
      exact List.forall_mem_cons.mpr ⟨hn, hr names' hr'⟩

theorem builds_parameters :
    Builds (fun result => ∀ names ∈ result, ∀ p ∈ names, Text.isIdentifier p.text = true)
      parameters := by
  intro s
  refine BuildsAt.peek (BuildsAt.ite (fun _ => ?_) (fun _ => ?_))
  · exact BuildsAt.advance (BuildsAt.pure (by simp))
  · refine BuildsAt.expecting (by simp) fun hk => BuildsAt.currentName hk fun first hf => ?_
    refine BuildsAt.remaining ((builds_moreParameters _ _).bind fun rest s hr => ?_)
    cases rest with
    | none => exact BuildsAt.pure (by simp)
    | some rest =>
        refine BuildsAt.expecting (by simp) fun _ => BuildsAt.pure fun _ => ?_
        rintro names ⟨⟩
        exact List.forall_mem_cons.mpr ⟨hf, hr rest rfl⟩

/-! ### Blocks -/

include hs in
theorem builds_blockStatements (rounds : Nat) :
    Builds (fun nodes => ∀ n ∈ nodes, WellFormed .statement n)
      (blockStatements statement rounds) := by
  induction rounds with
  | zero => exact fun s => BuildsAt.pure (by simp)
  | succ rounds ih =>
      intro s
      refine BuildsAt.current (BuildsAt.ite (fun _ => BuildsAt.pure (by simp)) (fun _ => ?_))
      refine (hs s).bind fun next s hn => BuildsAt.advance ?_
      refine (ih _).bind fun rest s hr => BuildsAt.pure fun _ n hm => ?_
      rcases List.mem_append.mp hm with hm | hm
      · exact hn n (Option.mem_toList.mp hm)
      · exact hr n hm

include hs in
theorem builds_block : Builds (WellFormed .block) (block statement) := by
  intro s
  refine BuildsAt.current (BuildsAt.advance (BuildsAt.remaining ?_))
  refine (builds_blockStatements hs _ _).bind fun statements s hn => ?_
  exact BuildsAt.spanFrom fun span => BuildsAt.pure fun _ => .block hn

/-! ### Operands -/

include he in
theorem buildsAt_unary {s : ParseState} (hk : s.token.kind.isUnary = true) :
    BuildsAt s (Fits .expression) (unary expression) := by
  intro hsc
  refine BuildsAt.current (BuildsAt.advance ?_) hsc
  refine (he .unary _).bind fun operand s ho => BuildsAt.spanFrom fun span => ?_
  refine BuildsAt.pure fun _ n hn => ?_
  obtain ⟨e, hoe, rfl⟩ := Option.map_eq_some_iff.mp hn
  exact .unary (hsc.isUnary hk) (ho e hoe)

include he in
theorem builds_grouped : Builds (Fits .expression) (grouped expression) := by
  intro s
  refine BuildsAt.advance ((he .lowest _).bind fun inner s hi => ?_)
  exact BuildsAt.expecting (fits_none _) fun _ => BuildsAt.pure fun _ => hi

include he hs in
theorem builds_conditional : Builds (Fits .expression) (conditional expression statement) := by
  intro s
  refine BuildsAt.current (BuildsAt.expecting (fits_none _) fun _ => BuildsAt.advance ?_)
  refine (he .lowest _).bind fun condition s hc => ?_
  refine BuildsAt.expecting (fits_none _) fun _ => BuildsAt.expecting (fits_none _) fun _ => ?_
  refine (builds_block hs _).bind fun consequence s ht => ?_
  refine BuildsAt.peek (BuildsAt.ite (fun _ => ?_) (fun _ => ?_))
  · refine BuildsAt.advance (BuildsAt.expecting (fits_none _) fun _ => ?_)
    refine (builds_block hs _).bind fun alternative s hf => BuildsAt.spanFrom fun span => ?_
    refine BuildsAt.pure fun _ n hn => ?_
    obtain ⟨c, hcc, rfl⟩ := Option.map_eq_some_iff.mp hn
    exact .ifElse (hc c hcc) ht hf
  · refine BuildsAt.spanFrom fun span => BuildsAt.pure fun _ n hn => ?_
    obtain ⟨c, hcc, rfl⟩ := Option.map_eq_some_iff.mp hn
    exact .ifThen (hc c hcc) ht

include hs in
theorem builds_functionLiteral : Builds (Fits .expression) (functionLiteral statement) := by
  intro s
  refine BuildsAt.current (BuildsAt.expecting (fits_none _) fun _ => ?_)
  refine (builds_parameters _).bind fun names s hp => ?_
  cases names with
  | none => exact BuildsAt.pure fun _ => fits_none _
  | some names =>
      refine BuildsAt.expecting (fits_none _) fun _ => ?_
      refine (builds_block hs _).bind fun body s hb => BuildsAt.spanFrom fun span => ?_
      refine BuildsAt.pure fun _ => ?_
      rintro n ⟨⟩
      exact .function (hp names rfl) hb

include he in
theorem builds_arrayLiteral : Builds (Fits .expression) (arrayLiteral expression) := by
  intro s
  refine BuildsAt.current ((builds_expressionList he .rightBracket s).bind fun elements s hn => ?_)
  refine BuildsAt.spanFrom fun span => BuildsAt.pure fun _ n hm => ?_
  obtain ⟨es, hes, rfl⟩ := Option.map_eq_some_iff.mp hm
  exact .array (hn es hes)

include he hs in
theorem buildsAt_operandRule {s : ParseState} {rule : Parse (Option Node)}
    (h : operandRule? expression statement s.token.kind = some rule) :
    BuildsAt s (Fits .expression) rule := by
  cases hk : s.token.kind <;> rw [hk] at h <;> cases h
  case identifier => exact buildsAt_identifier hk
  case integer => exact buildsAt_integer hk
  case trueWord => exact builds_boolean s
  case falseWord => exact builds_boolean s
  case bang => exact buildsAt_unary he (by rw [hk]; rfl)
  case minus => exact buildsAt_unary he (by rw [hk]; rfl)
  case leftParen => exact builds_grouped he s
  case ifWord => exact builds_conditional he hs s
  case funcWord => exact builds_functionLiteral hs s
  case leftBracket => exact builds_arrayLiteral he s

/-! ### Going on from an operand -/

include he in
theorem buildsAt_binary {s : ParseState} {left : Option Node} (hl : Fits .expression left)
    (hk : s.token.kind.isBinary = true) :
    BuildsAt s (Fits .expression) (binary expression left) := by
  intro hsc
  refine BuildsAt.current (BuildsAt.advance ?_) hsc
  refine (he _ _).bind fun right s hr => BuildsAt.pure fun _ n hn => ?_
  cases left with
  | none => simp at hn
  | some l =>
      cases right with
      | none => simp at hn
      | some r =>
          obtain rfl := Option.some.inj hn
          exact .binary (hl l rfl) (hsc.isBinary hk) (hr r rfl)

include he in
theorem builds_call {callee : Option Node} (hc : Fits .expression callee) :
    Builds (Fits .expression) (call expression callee) := by
  intro s
  refine (builds_expressionList he .rightParen s).bind fun arguments s ha => ?_
  refine BuildsAt.current (BuildsAt.pure fun _ n hn => ?_)
  cases callee with
  | none => simp at hn
  | some f =>
      cases arguments with
      | none => simp at hn
      | some es =>
          obtain rfl := Option.some.inj hn
          exact .call (hc f rfl) (ha es rfl)

include he in
theorem builds_index {collection : Option Node} (hc : Fits .expression collection) :
    Builds (Fits .expression) (index expression collection) := by
  intro s
  refine BuildsAt.advance ((he .lowest _).bind fun position s hp => ?_)
  refine BuildsAt.expecting (fits_none _) fun _ => ?_
  refine BuildsAt.current (BuildsAt.pure fun _ n hn => ?_)
  cases collection with
  | none => simp at hn
  | some l =>
      cases position with
      | none => simp at hn
      | some i =>
          obtain rfl := Option.some.inj hn
          exact .index (hc l rfl) (hp i rfl)

include he in
theorem buildsAt_extend {s : ParseState} {left : Option Node} {p : Precedence}
    (hl : Fits .expression left) (hp : p.rank < s.token.kind.precedence.rank) :
    BuildsAt s (Fits .expression) (extend expression left) := by
  apply BuildsAt.current
  split
  · exact builds_call he hl s
  · exact builds_index he hl s
  · next hc hi => exact buildsAt_binary he hl (Kind.isBinary_of_lt_rank hp hc hi)

include he in
theorem builds_extendWhile (precedence : Precedence) (rounds : Nat) {left : Option Node}
    (hl : Fits .expression left) :
    Builds (Fits .expression) (extendWhile expression precedence rounds left) := by
  induction rounds generalizing left with
  | zero => exact fun s => BuildsAt.pure fun _ => hl
  | succ rounds ih =>
      intro s
      refine BuildsAt.peek (BuildsAt.ite (fun hp => ?_) (fun _ => BuildsAt.pure fun _ => hl))
      refine BuildsAt.advance ((buildsAt_extend he hl hp).bind fun extended s hx => ?_)
      exact ih hx s

include he hs in
theorem builds_expressionBy (precedence : Precedence) :
    Builds (Fits .expression) (expressionBy expression statement precedence) := by
  intro s
  apply BuildsAt.current
  split
  · exact fun hsc => ⟨hsc, fits_none _⟩
  · next rule hr =>
      refine (buildsAt_operandRule he hs hr).bind fun operand s ho => BuildsAt.remaining ?_
      exact builds_extendWhile he precedence _ ho s

/-! ### Statements -/

include he in
theorem builds_letStatement : Builds (Fits .statement) (letStatement expression) := by
  intro s
  refine BuildsAt.current (BuildsAt.expecting (fits_none _) fun hk => ?_)
  refine BuildsAt.currentName hk fun name hn => BuildsAt.expecting (fits_none _) fun _ => ?_
  refine BuildsAt.advance ((he .lowest _).bind fun value s hv => BuildsAt.skipSemicolon fun s => ?_)
  refine BuildsAt.spanFrom fun span => BuildsAt.pure fun _ n hm => ?_
  obtain ⟨v, hvv, rfl⟩ := Option.map_eq_some_iff.mp hm
  exact .letBinding hn (hv v hvv)

include he in
theorem builds_returnStatement : Builds (Fits .statement) (returnStatement expression) := by
  intro s
  refine BuildsAt.current (BuildsAt.advance ?_)
  refine (he .lowest _).bind fun value s hv => BuildsAt.skipSemicolon fun s => ?_
  refine BuildsAt.spanFrom fun span => BuildsAt.pure fun _ n hm => ?_
  obtain ⟨v, hvv, rfl⟩ := Option.map_eq_some_iff.mp hm
  exact .returning (hv v hvv)

include he in
theorem builds_expressionStatement : Builds (Fits .statement) (expressionStatement expression) := by
  intro s
  refine BuildsAt.current ((he .lowest _).bind fun value s hv => BuildsAt.skipSemicolon fun s => ?_)
  refine BuildsAt.spanFrom fun span => BuildsAt.pure fun _ n hm => ?_
  obtain ⟨v, hvv, rfl⟩ := Option.map_eq_some_iff.mp hm
  exact .evaluated (hv v hvv)

include he in
theorem builds_statementBy : Builds (Fits .statement) (statementBy expression) := by
  intro s
  apply BuildsAt.current
  split
  · exact builds_letStatement he s
  · exact builds_returnStatement he s
  · exact builds_expressionStatement he s

end Rules

/-! ### Nesting -/

/-- Expressions and statements of every depth are well-formed. -/
theorem builds_readers (depth : Nat) :
    (∀ precedence, Builds (Fits .expression) (expression depth precedence)) ∧
      Builds (Fits .statement) (statement depth) := by
  induction depth with
  | zero => exact ⟨fun _ _ _ => True.intro, fun _ _ => True.intro⟩
  | succ depth ih =>
      refine ⟨fun precedence => ?_, ?_⟩
      · rw [expression]; exact builds_expressionBy ih.1 ih.2 precedence
      · rw [statement]; exact builds_statementBy ih.1

/-- The statements of a program are well-formed, also where the nesting limit cuts it short. -/
theorem programStatements_wellFormed {s : ParseState} {statement : Parse (Option Node)}
    (hb : Builds (Fits .statement) statement) (rounds : Nat) (hs : s.Scanned) :
    Ends (programStatements statement rounds) s
      (fun nodes _ => ∀ n ∈ nodes, WellFormed .statement n) anyFault := by
  induction rounds generalizing s with
  | zero => simp [programStatements]
  | succ rounds ih =>
      by_cases hk : s.token.kind = .endOfInput
      · simp [programStatements, hk]
      · rw [ends_programStatements_succ statement rounds hk]
        refine Ends.mono (hb s hs) ?_ ?_
        · rintro next s' ⟨hs', hn⟩
          refine Ends.imp (ih hs'.next) fun rest s'' hr n hm => ?_
          rcases List.mem_append.mp hm with hm | hm
          · exact hn n (Option.mem_toList.mp hm)
          · exact hr n hm
        · intro fault s' _
          split
          · simp
          · exact True.intro

end Parse

/-- The tree of a program is well-formed, whatever was left out of it. -/
theorem wellFormed_of_parseWithin {depth : Nat} {program : String} {parsed : Parsed}
    (h : parseWithin depth program = .ok parsed) : parsed.tree.WellFormed .program := by
  have hs : ParseState.Scanned { stream := TokenStream.ofProgram program } :=
    fun t ht => Token.scanned_ofProgram ht
  obtain ⟨statements, span, s, ht, -, hn⟩ := TokenStream.parseWithin_ends
    (Parse.programStatements_wellFormed (Parse.builds_readers depth).2 _ hs) h
  rw [ht]
  exact .program hn

end ExprLang
