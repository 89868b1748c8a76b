import ExprLang.Proofs.Parsing.Program

/-!
# What the rules are made of

Every rule looks at the current token and at the next one, goes on, lists diagnostics about one of
the two, and calls the readers of nested expressions and statements. So a relation between two ways
of reading that all of this keeps up holds of every rule, if it holds of the readers. This is the walk
through the rules, made once.

One use of it is given here: whatever a parse does, it goes from state to state by passing over a
token and by listing a diagnostic about the token at hand or about the next one.

## Implementation notes

The relation is one of steps from a given state. Behind a first step it may be used in every state in
which either of the two steps ends, so that it can also speak of the second way where the first one
has ended with a fault.
-/

namespace ExprLang

/-- A diagnostic about the next token where that is not of the kind that is required, or about the
current one where it starts no operand or is too large an integer. -/
inductive ParseState.Blames (s : ParseState) : Diagnostic → Prop where
  | unexpected {kind : Kind} (h : s.next.token.kind ≠ kind) :
      Blames s ⟨.unexpectedToken kind s.next.token, s.next.token.span⟩
  | noOperand (h : ∀ expression statement,
        Parse.operandRule? expression statement s.token.kind = none) :
      Blames s ⟨.noOperand s.token, s.token.span⟩
  | tooLarge {value : Int} (hr : Text.readInt s.token.text = .ok value) (hv : maxInteger < value) :
      Blames s ⟨.integerTooLarge s.token, s.token.span⟩

namespace Parse

/-- A relation between steps from a state that holds of all that rules are made of. -/
structure Composes (R : {α : Type} → ParseState → Parse α → Parse α → Prop) : Prop where
  looks {α : Type} {s : ParseState} {step : Parse α} {a : α} (h : step s = .ok a s) : R s step step
  advance (s : ParseState) : R s advance advance
  complain {s : ParseState} {d : Diagnostic} (h : s.Blames d) :
    R s (complain d.complaint d.span) (complain d.complaint d.span)
  unreadable {α : Type} (s : ParseState) (reason : Text.Unreadable) :
    R s (throw (.unreadableInteger reason) : Parse α) (throw (.unreadableInteger reason))
  bind {α β : Type} {s : ParseState} {step step' : Parse α} {f f' : α → Parse β}
    (h : R s step step')
    (hf : ∀ a s', step s = .ok a s' ∨ step' s = .ok a s' → R s' (f a) (f' a)) :
    R s (step >>= f) (step' >>= f')

namespace Composes

variable {R : {α : Type} → ParseState → Parse α → Parse α → Prop} (hR : Composes R)
variable {α β : Type} {s : ParseState}

include hR

/-! ### Primitives -/

theorem pure (a : α) : R s (pure a) (pure a) :=
  hR.looks rfl

/-- What comes behind a step that only looks at the state. -/
theorem look {step : Parse α} {a : α} {f f' : α → Parse β} (hs : step s = .ok a s)
    (h : R s (f a) (f' a)) : R s (step >>= f) (step >>= f') := by
  apply hR.bind (hR.looks hs)
  intro b s' hb
  rw [or_self, hs] at hb
  cases hb
  exact h

/-- What comes behind going on to the next token. -/
theorem proceed {f f' : Unit → Parse α} (h : R s.next (f ()) (f' ())) :
    R s (Parse.advance >>= f) (Parse.advance >>= f') := by
  apply hR.bind (hR.advance s)
  intro u s' hu
  rw [or_self] at hu
  cases hu
  exact h

theorem current {f f' : Token → Parse α} (h : R s (f s.token) (f' s.token)) :
    R s (Parse.current >>= f) (Parse.current >>= f') :=
  hR.look rfl h

theorem peek {f f' : Token → Parse α} (h : R s (f s.next.token) (f' s.next.token)) :
    R s (Parse.peek >>= f) (Parse.peek >>= f') :=
  hR.look rfl h

theorem remaining {f f' : Nat → Parse α}
    (h : R s (f s.stream.pending.length) (f' s.stream.pending.length)) :
    R s (Parse.remaining >>= f) (Parse.remaining >>= f') :=
  hR.look rfl h

theorem spanFrom {start : Token} {f f' : Span → Parse α}
    (h : R s (f (start.span.cover s.token.span)) (f' (start.span.cover s.token.span))) :
    R s (Parse.spanFrom start >>= f) (Parse.spanFrom start >>= f') :=
  hR.look rfl h

theorem currentName {f f' : Name → Parse α}
    (h : R s (f ⟨s.token.text, s.token.span⟩) (f' ⟨s.token.text, s.token.span⟩)) :
    R s (Parse.currentName >>= f) (Parse.currentName >>= f') :=
  hR.look rfl h

theorem expecting {kind : Kind} {step step' : Parse (Option α)} (h : R s.next step step') :
    R s (Parse.expecting kind step) (Parse.expecting kind step') := by
  have hpeek : R s (expectPeek kind) (expectPeek kind) := by
    apply hR.peek
    split
    case isTrue => exact hR.proceed (hR.pure true)
    case isFalse hk =>
      apply hR.bind (hR.complain (.unexpected hk))
      intro _ s' _
      exact hR.pure false
  have hnext : Ends (expectPeek kind) s (fun found s' => found = true → s' = s.next) anyFault := by
    simp only [expectPeek, ends_bind, ends_peek, ends_ite, ends_advance, ends_complain, ends_pure]
    split <;> simp
  apply hR.bind hpeek
  intro found s' hs'
  rw [or_self] at hs'
  cases found with
  | true =>
      rw [hnext.ok hs' rfl]
      exact h
  | false => exact hR.pure none

theorem skipSemicolon : R s Parse.skipSemicolon Parse.skipSemicolon := by
  apply hR.peek
  split
  · exact hR.advance s
  · exact hR.pure ()

/-! ### Literals -/

theorem integer : R s Parse.integer Parse.integer := by
  apply hR.current
  cases hr : Text.readInt s.token.text with
  | error reason => exact hR.unreadable s reason
  | ok value =>
      dsimp only
      split
      case isTrue hv =>
        apply hR.bind (hR.complain (.tooLarge hr hv))
        intro _ s' _
        exact hR.pure none
      case isFalse => exact hR.pure _

section Rules

variable {expression expression' : Precedence → Parse (Option Node)}
variable {statement statement' : Parse (Option Node)}
variable (he : ∀ p s, R s (expression p) (expression' p))
variable (hs : ∀ s, R s statement statement')

/-! ### Lists -/

include he in
theorem moreExpressions (rounds : Nat) (s : ParseState) :
    R s (Parse.moreExpressions expression rounds) (Parse.moreExpressions expression' rounds) := by
  induction rounds generalizing s with
  | zero => exact hR.pure []
  | succ rounds ih =>
      apply hR.peek
      split
      · apply hR.proceed
        apply hR.proceed
        apply hR.bind (he .lowest _)
        intro next s₁ _
        apply hR.bind (ih s₁)
        intro rest s₂ _
        exact hR.pure _
      · exact hR.pure []

include he in
theorem expressionList (closing : Kind) (s : ParseState) :
    R s (Parse.expressionList expression closing) (Parse.expressionList expression' closing) := by
  apply hR.peek
  split
  · exact hR.proceed (hR.pure _)
  · apply hR.proceed
    apply hR.bind (he .lowest _)
    intro first s₁ _
    apply hR.remaining
    apply hR.bind (hR.moreExpressions he _ s₁)
    intro rest s₂ _
    exact hR.expecting (hR.pure _)

theorem moreParameters (rounds : Nat) (s : ParseState) :
    R s (Parse.moreParameters rounds) (Parse.moreParameters rounds) := by
  induction rounds generalizing s with
  | zero => exact hR.pure _
  | succ rounds ih =>
      apply hR.peek
      split
      · apply hR.proceed
        apply hR.expecting
        apply hR.currentName
        apply hR.bind (ih _)
        intro rest s₁ _
        exact hR.pure _
      · exact hR.pure _

theorem parameters (s : ParseState) : R s Parse.parameters Parse.parameters := by
  apply hR.peek
  split
  · exact hR.proceed (hR.pure _)
  · apply hR.expecting
    apply hR.currentName
    apply hR.remaining
    apply hR.bind (hR.moreParameters _ _)
    intro rest s₁ _
    cases rest with
    | none => exact hR.pure none
    | some rest => exact hR.expecting (hR.pure _)

/-! ### Blocks -/

include hs in
theorem blockStatements (rounds : Nat) (s : ParseState) :
    R s (Parse.blockStatements statement rounds) (Parse.blockStatements statement' rounds) := by
  induction rounds generalizing s with
  | zero => exact hR.pure []
  | succ rounds ih =>
      apply hR.current
      split
      · exact hR.pure []
      · apply hR.bind (hs s)
        intro next s₁ _
        apply hR.proceed
        apply hR.bind (ih _)
        intro rest s₂ _
        exact hR.pure _

include hs in
theorem block (s : ParseState) : R s (Parse.block statement) (Parse.block statement') := by
  apply hR.current
  apply hR.proceed
  apply hR.remaining
  apply hR.bind (hR.blockStatements hs _ _)
  intro statements s₁ _
  apply hR.spanFrom
  exact hR.pure _

/-! ### Operands -/

include he in
theorem unary (s : ParseState) : R s (Parse.unary expression) (Parse.unary expression') := by
  apply hR.current
  apply hR.proceed
  apply hR.bind (he .unary _)
  intro operand s₁ _
  apply hR.spanFrom
  exact hR.pure _

include he in
theorem grouped (s : ParseState) : R s (Parse.grouped expression) (Parse.grouped expression') := by
  apply hR.proceed
  apply hR.bind (he .lowest _)
  intro inner s₁ _
  exact hR.expecting (hR.pure inner)

include he hs in
theorem conditional (s : ParseState) :
    R s (Parse.conditional expression statement) (Parse.conditional expression' statement') := by
  apply hR.current
  apply hR.expecting
  apply hR.proceed
  apply hR.bind (he .lowest _)
  intro condition s₁ _
  apply hR.expecting
  apply hR.expecting
  apply hR.bind (hR.block hs _)
  intro consequence s₂ _
  apply hR.peek
  split
  · apply hR.proceed
    apply hR.expecting
    apply hR.bind (hR.block hs _)
    intro alternative s₃ _
    apply hR.spanFrom
    exact hR.pure _
  · apply hR.spanFrom
    exact hR.pure _

include hs in
theorem functionLiteral (s : ParseState) :
    R s (Parse.functionLiteral statement) (Parse.functionLiteral statement') := by
  apply hR.current
  apply hR.expecting
  apply hR.bind (hR.parameters _)
  intro names s₁ _
  cases names with
  | none => exact hR.pure none
  | some names =>
      apply hR.expecting
      apply hR.bind (hR.block hs _)
      intro body s₂ _
      apply hR.spanFrom
      exact hR.pure _

include he in
theorem arrayLiteral (s : ParseState) :
    R s (Parse.arrayLiteral expression) (Parse.arrayLiteral expression') := by
  apply hR.current
  apply hR.bind (hR.expressionList he .rightBracket s)
  intro elements s₁ _
  apply hR.spanFrom
  exact hR.pure _

include he hs in
/-- The rules for an operand are there for the same kinds. -/
theorem operandRule (kind : Kind) :
    (∀ expression statement, operandRule? expression statement kind = none) ∨
      ∃ rule rule', operandRule? expression statement kind = some rule ∧
        operandRule? expression' statement' kind = some rule' ∧ ∀ s, R s rule rule' := by
  cases kind
  case identifier => exact Or.inr ⟨_, _, rfl, rfl, fun _ => hR.current (hR.pure _)⟩
  case integer => exact Or.inr ⟨_, _, rfl, rfl, fun _ => hR.integer⟩
  case trueWord => exact Or.inr ⟨_, _, rfl, rfl, fun _ => hR.current (hR.pure _)⟩
  case falseWord => exact Or.inr ⟨_, _, rfl, rfl, fun _ => hR.current (hR.pure _)⟩
  case bang => exact Or.inr ⟨_, _, rfl, rfl, hR.unary he⟩
  case minus => exact Or.inr ⟨_, _, rfl, rfl, hR.unary he⟩
  case leftParen => exact Or.inr ⟨_, _, rfl, rfl, hR.grouped he⟩
  case ifWord => exact Or.inr ⟨_, _, rfl, rfl, hR.conditional he hs⟩
  case funcWord => exact Or.inr ⟨_, _, rfl, rfl, hR.functionLiteral hs⟩
  case leftBracket => exact Or.inr ⟨_, _, rfl, rfl, hR.arrayLiteral he⟩
  all_goals exact Or.inl fun _ _ => rfl

/-! ### Going on from an operand -/

include he in
theorem extend (left : Option Node) (s : ParseState) :
    R s (Parse.extend expression left) (Parse.extend expression' left) := by
  apply hR.current
  split
  · apply hR.bind (hR.expressionList he .rightParen s)
    intro arguments s₁ _
    exact hR.current (hR.pure _)
  · apply hR.proceed
    apply hR.bind (he .lowest _)
    intro position s₁ _
    apply hR.expecting
    exact hR.current (hR.pure _)
  · apply hR.current
    apply hR.proceed
    apply hR.bind (he _ _)
    intro right s₁ _
    exact hR.pure _

include he in
theorem extendWhile (precedence : Precedence) (rounds : Nat) (left : Option Node)
    (s : ParseState) :
    R s (Parse.extendWhile expression precedence rounds left)
      (Parse.extendWhile expression' precedence rounds left) := by
  induction rounds generalizing s left with
  | zero => exact hR.pure left
  | succ rounds ih =>
      apply hR.peek
      split
      · apply hR.proceed
        apply hR.bind (hR.extend he left _)
        intro extended s₁ _
        exact ih extended s₁
      · exact hR.pure left

include he hs in
theorem expressionBy (precedence : Precedence) (s : ParseState) :
    R s (Parse.expressionBy expression statement precedence)
      (Parse.expressionBy expression' statement' precedence) := by
  apply hR.current
  obtain hr | ⟨rule, rule', hr, hr', hrule⟩ := hR.operandRule he hs s.token.kind
  · rw [hr, hr]
    apply hR.bind (hR.complain (.noOperand hr))
    intro _ s₁ _
    exact hR.pure none
  · rw [hr, hr']
    apply hR.bind (hrule s)
    intro operand s₁ _
    apply hR.remaining
    exact hR.extendWhile he precedence _ operand s₁

/-! ### Statements -/

include he in
theorem statementBy (s : ParseState) :
    R s (Parse.statementBy expression) (Parse.statementBy expression') := by
  -- All forms of a statement end alike.
  have hend : ∀ {start : Token} {build : Node → Span → Node} (value : Option Node) (s : ParseState),
      R s (Parse.skipSemicolon >>= fun _ => Parse.spanFrom start >>= fun span =>
          Pure.pure (value.map fun v => build v span))
        (Parse.skipSemicolon >>= fun _ => Parse.spanFrom start >>= fun span =>
          Pure.pure (value.map fun v => build v span)) := by
    intro start build value s
    apply hR.bind hR.skipSemicolon
    intro _ s₁ _
    apply hR.spanFrom
    exact hR.pure _
  apply hR.current
  split
  · apply hR.current
    apply hR.expecting
    apply hR.currentName
    apply hR.expecting
    apply hR.proceed
    apply hR.bind (he .lowest _)
    intro value s₁ _
    exact hend value s₁
  · apply hR.current
    apply hR.proceed
    apply hR.bind (he .lowest _)
    intro value s₁ _
    exact hend value s₁
  · apply hR.current
    apply hR.bind (he .lowest _)
    intro value s₁ _
    exact hend value s₁

end Rules

/-! ### Nesting -/

/-- Readers are related if they have as many levels, or if the second one has more and a reader without
a level is related to every other one. -/
theorem readers {depth depth' : Nat} (hd : depth ≤ depth')
    (he : ∀ levels p s, R s (throw .tooDeep) (Parse.expression levels p))
    (hs : ∀ levels s, R s (throw .tooDeep) (Parse.statement levels)) :
    (∀ p s, R s (Parse.expression depth p) (Parse.expression depth' p)) ∧
      ∀ s, R s (Parse.statement depth) (Parse.statement depth') := by
  induction depth generalizing depth' with
  | zero => exact ⟨he depth', hs depth'⟩
  | succ depth ih =>
      obtain ⟨levels, rfl⟩ : ∃ levels, depth' = levels + 1 := ⟨depth' - 1, by omega⟩
      obtain ⟨hexpression, hstatement⟩ := ih (Nat.le_of_succ_le_succ hd)
      constructor
      · intro p s
        rw [Parse.expression, Parse.expression]
        exact hR.expressionBy hexpression hstatement p s
      · intro s
        rw [Parse.statement, Parse.statement]
        exact hR.statementBy hexpression s

end Composes

/-! ### Passing over tokens and listing diagnostics -/

/-- A state that comes from another one by passing over tokens and by listing diagnostics about the
tokens at hand. -/
inductive Proceeds (s : ParseState) : ParseState → Prop where
  | refl : Proceeds s s
  | next {s' : ParseState} (h : Proceeds s s') : Proceeds s s'.next
  | noting {s' : ParseState} {d : Diagnostic} (h : Proceeds s s') (hd : s'.Blames d) :
      Proceeds s (s'.noting d.complaint d.span)

namespace Proceeds

variable {s s' s'' : ParseState} {d : Diagnostic}

theorem trans (h : Proceeds s s') (h' : Proceeds s' s'') : Proceeds s s'' := by
  induction h' with
  | refl => exact h
  | next _ ih => exact ih.next
  | noting _ hd ih => exact ih.noting hd

theorem follows (h : Proceeds s s') : Follows s s' := by
  induction h with
  | refl => exact Follows.refl s
  | next _ ih => exact ih.trans (Follows.next _)
  | noting _ _ ih => exact ih.trans (Follows.noting _ _ _)

/-- A diagnostic that was listed on the way is about a token that was at hand when those before it
had been listed. -/
theorem exists_blames {front rest : List Diagnostic} (h : Proceeds s s')
    (hd : s'.diagnostics = s.diagnostics ++ front ++ d :: rest) :
    ∃ s₁, Proceeds s s₁ ∧ s₁.diagnostics = s.diagnostics ++ front ∧ s₁.Blames d := by
  induction h generalizing rest with
  | refl => simp at hd
  | next _ ih => exact ih hd
  | @noting s₂ e h₂ he ih =>
      rw [ParseState.noting_diagnostics] at hd
      obtain rfl | ⟨rest', last, rfl⟩ := List.eq_nil_or_concat rest
      · obtain ⟨hfront, hlast⟩ := List.append_inj' hd rfl
        cases hlast
        exact ⟨s₂, h₂, hfront, he⟩
      · rw [List.concat_eq_append, ← List.cons_append, ← List.append_assoc] at hd
        exact ih (List.append_inj' hd rfl).1

/-- No diagnostic about a token at hand is one about the nesting limit. -/
theorem withinLimit (h : Proceeds s s')
    (hs : ∀ d ∈ s.diagnostics, d.complaint ≠ .nestedTooDeep) :
    ∀ d ∈ s'.diagnostics, d.complaint ≠ .nestedTooDeep := by
  induction h with
  | refl => exact hs
  | next _ ih => exact ih
  | noting _ hd ih =>
      intro e he
      rcases List.mem_append.mp he with hm | hm
      · exact ih e hm
      · cases List.mem_singleton.mp hm
        cases hd <;> exact Complaint.noConfusion

end Proceeds

/-- Where a step ends, with a result or with a fault, it has come by passing over tokens and by
listing diagnostics about the tokens at hand. -/
def Proceeding {α : Type} (s : ParseState) (step _ : Parse α) : Prop :=
  Ends step s (fun _ => Proceeds s) (fun _ => Proceeds s)

theorem composes_proceeding : Composes Proceeding where
  looks h := by
    unfold Proceeding Ends
    rw [h]
    exact .refl
  advance s := Proceeds.refl.next
  complain hd := Proceeds.refl.noting hd
  unreadable s _ := Proceeds.refl
  bind h hf := by
    apply (ends_bind _ _).mpr
    apply (h.and (ends_run _ _)).mono
    · intro a s' hr
      exact (hf a s' (Or.inl hr.2)).mono (fun _ _ => hr.1.trans) (fun _ _ => hr.1.trans)
    · intro fault s' hr
      exact hr.1

theorem statement_proceeds (depth : Nat) (s : ParseState) :
    Ends (statement depth) s (fun _ => Proceeds s) (fun _ => Proceeds s) :=
  (composes_proceeding.readers (Nat.le_refl depth) (fun _ _ _ => Proceeds.refl)
    (fun _ _ => Proceeds.refl)).2 s

/-- Reading a program ends in a state to which its statements proceed, or with one more diagnostic
where a statement is given up for its nesting. -/
theorem programStatements_proceeds (depth rounds : Nat) (s : ParseState) :
    Ends (programStatements (statement depth) rounds) s
      (fun _ s' => Proceeds s s' ∨
        ∃ s₁, Proceeds s s₁ ∧ s' = s₁.noting .nestedTooDeep s₁.token.span) anyFault := by
  induction rounds generalizing s with
  | zero => exact Or.inl Proceeds.refl
  | succ rounds ih =>
      by_cases hk : s.token.kind = .endOfInput
      · simpa [programStatements, hk] using Or.inl Proceeds.refl
      · rw [ends_programStatements_succ (statement depth) rounds hk]
        apply (statement_proceeds depth s).mono
        · intro n s₁ h₁
          apply (ih s₁.next).imp
          intro rest s' hrest
          rcases hrest with hrest | ⟨s₂, h₂, hs'⟩
          · exact Or.inl (h₁.next.trans hrest)
          · exact Or.inr ⟨s₂, h₁.next.trans h₂, hs'⟩
        · intro fault s₁ h₁
          split
          · exact Or.inr ⟨s₁, h₁, rfl⟩
          · trivial

end Parse

/-- The diagnostics of a parse are about tokens at hand, all but a last one where a statement is given
up for its nesting. -/
theorem TokenStream.exists_proceeds {depth : Nat} {stream : TokenStream} {parsed : Parsed}
    (h : stream.parseWithin depth = .ok parsed) :
    ∃ s, Parse.Proceeds { stream } s ∧ (∀ d ∈ s.diagnostics, d.complaint ≠ .nestedTooDeep) ∧
      (parsed.diagnostics = s.diagnostics ∨
        parsed.diagnostics = s.diagnostics ++ [⟨.nestedTooDeep, s.token.span⟩]) := by
  obtain ⟨statements, span, s, -, hd, hs⟩ :=
    parseWithin_ends (Parse.programStatements_proceeds depth _ { stream }) h
  have hnone : ∀ d ∈ ({ stream } : ParseState).diagnostics, d.complaint ≠ .nestedTooDeep :=
    fun d hd => absurd hd List.not_mem_nil
  rcases hs with hs | ⟨s₁, h₁, rfl⟩
  · exact ⟨s, hs, hs.withinLimit hnone, Or.inl hd⟩
  · exact ⟨s₁, h₁, h₁.withinLimit hnone, Or.inr hd⟩

/-- A diagnostic of a parse, unless it is about the nesting limit, is about a token that was at hand
when the diagnostics before it had been listed. -/
theorem TokenStream.exists_blames {depth : Nat} {stream : TokenStream} {parsed : Parsed}
    (h : stream.parseWithin depth = .ok parsed) {front rest : List Diagnostic} {d : Diagnostic}
    (hd : parsed.diagnostics = front ++ d :: rest) (hc : d.complaint ≠ .nestedTooDeep) :
    ∃ s, Parse.Proceeds { stream } s ∧ s.diagnostics = front ∧ s.Blames d := by
  obtain ⟨s, hs, -, hlist | hlist⟩ := exists_proceeds h
  · rw [hd] at hlist
    exact hs.exists_blames hlist.symm
  · rw [hd] at hlist
    obtain rfl | ⟨rest', last, rfl⟩ := List.eq_nil_or_concat rest
    · obtain ⟨-, hlast⟩ := List.append_inj' hlist rfl
      cases hlast
      exact absurd rfl hc
    · rw [List.concat_eq_append, ← List.cons_append, ← List.append_assoc] at hlist
      exact hs.exists_blames (List.append_inj' hlist rfl).1.symm

end ExprLang
