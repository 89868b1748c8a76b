import ExprLang.Parsing.Expression
import ExprLang.Proofs.Ending

/-!
# Properties of the end of a parsing step

The equations of `Ends` for the readers: a statement about a rule becomes one about the readers that
the rule calls.
-/

namespace ExprLang

namespace ParseState

/-- The current token. -/
def token (s : ParseState) : Token :=
  s.stream.head

/-- The state behind the current token. -/
def next (s : ParseState) : ParseState :=
  { s with stream := s.stream.tail }

/-- The state with one more diagnostic. -/
def noting (s : ParseState) (complaint : Complaint) (span : Span) : ParseState :=
  { s with diagnostics := s.diagnostics ++ [⟨complaint, span⟩] }

/-- The tokens from the current one on, apart from their places. -/
def upcoming (s : ParseState) : List Token :=
  s.stream.pending.map Token.unplaced

@[simp] theorem next_pending (s : ParseState) :
    s.next.stream.pending = s.stream.pending.tail := rfl

@[simp] theorem next_diagnostics (s : ParseState) : s.next.diagnostics = s.diagnostics := rfl

@[simp] theorem noting_stream (s : ParseState) (complaint : Complaint) (span : Span) :
    (s.noting complaint span).stream = s.stream := rfl

@[simp] theorem noting_diagnostics (s : ParseState) (complaint : Complaint) (span : Span) :
    (s.noting complaint span).diagnostics = s.diagnostics ++ [⟨complaint, span⟩] := rfl

@[simp] theorem next_upcoming (s : ParseState) : s.next.upcoming = s.upcoming.tail := by
  simp [upcoming]

theorem length_upcoming (s : ParseState) : s.upcoming.length = s.stream.pending.length := by
  simp [upcoming]

/-- The current token is the first one of those to come. -/
theorem token_of_upcoming {s : ParseState} {t : Token} {rest : List Token}
    (h : s.upcoming = t :: rest) : s.token.unplaced = t := by
  obtain ⟨u, us, hp, hu, -⟩ := List.map_eq_cons_iff.mp h
  simpa [token, TokenStream.head, hp] using hu

theorem kind_of_upcoming {s : ParseState} {t : Token} {rest : List Token}
    (h : s.upcoming = t :: rest) : s.token.kind = t.kind := by
  rw [← token_of_upcoming h]
  rfl

theorem text_of_upcoming {s : ParseState} {t : Token} {rest : List Token}
    (h : s.upcoming = t :: rest) : s.token.text = t.text := by
  rw [← token_of_upcoming h]
  rfl

/-- Behind the last token the current one is the end of the input. -/
theorem kind_of_upcoming_nil {s : ParseState} (h : s.upcoming = []) :
    s.token.kind = .endOfInput := by
  have hp : s.stream.pending = [] := List.map_eq_nil_iff.mp h
  simp [token, TokenStream.head, hp, Token.ending]

end ParseState

namespace Parse

variable {α : Type} {s : ParseState} {onFault : Fault → ParseState → Prop}

/-- Faults are not looked at. -/
abbrev anyFault : Fault → ParseState → Prop := fun _ _ => True

section Primitives

variable {onToken : Token → ParseState → Prop} {onUnit : Unit → ParseState → Prop}
variable {onNat : Nat → ParseState → Prop} {onSpan : Span → ParseState → Prop}
variable {onName : Name → ParseState → Prop} {onOption : Option α → ParseState → Prop}

@[simp] theorem ends_current : Ends current s onToken onFault ↔ onToken s.token s := Iff.rfl

@[simp] theorem ends_peek : Ends peek s onToken onFault ↔ onToken s.next.token s := Iff.rfl

@[simp] theorem ends_remaining :
    Ends remaining s onNat onFault ↔ onNat s.stream.pending.length s := Iff.rfl

@[simp] theorem ends_advance : Ends advance s onUnit onFault ↔ onUnit () s.next := Iff.rfl

@[simp] theorem ends_complain (complaint : Complaint) (span : Span) :
    Ends (complain complaint span) s onUnit onFault ↔ onUnit () (s.noting complaint span) :=
  Iff.rfl

@[simp] theorem ends_spanFrom (start : Token) :
    Ends (spanFrom start) s onSpan onFault ↔ onSpan (start.span.cover s.token.span) s := Iff.rfl

@[simp] theorem ends_currentName :
    Ends currentName s onName onFault ↔ onName ⟨s.token.text, s.token.span⟩ s := Iff.rfl

@[simp] theorem ends_skipSemicolon :
    Ends skipSemicolon s onUnit onFault ↔
      onUnit () (if s.next.token.kind = .semicolon then s.next else s) := by
  simp only [skipSemicolon, ends_bind, ends_peek, ends_ite, ends_advance, ends_pure]
  split <;> rfl

@[simp] theorem ends_expecting (kind : Kind) (step : Parse (Option α)) :
    Ends (expecting kind step) s onOption onFault ↔
      if s.next.token.kind = kind then Ends step s.next onOption onFault
      else onOption none
        (s.noting (.unexpectedToken kind s.next.token) s.next.token.span) := by
  by_cases h : s.next.token.kind = kind <;>
    simp [expecting, expectPeek, h]

end Primitives

/-! ### Going on from an operand -/

section Extend

variable {expression : Precedence → Parse (Option Node)} {left : Option Node}
variable {onOption : Option Node → ParseState → Prop}

theorem ends_extend_call (h : s.token.kind = .leftParen) :
    Ends (extend expression left) s onOption onFault ↔
      Ends (call expression left) s onOption onFault := by
  simp only [extend, ends_bind, ends_current, h]

theorem ends_extend_index (h : s.token.kind = .leftBracket) :
    Ends (extend expression left) s onOption onFault ↔
      Ends (index expression left) s onOption onFault := by
  simp only [extend, ends_bind, ends_current, h]

theorem ends_extend_binary (hp : s.token.kind ≠ .leftParen) (hb : s.token.kind ≠ .leftBracket) :
    Ends (extend expression left) s onOption onFault ↔
      Ends (binary expression left) s onOption onFault := by
  simp only [extend, ends_bind, ends_current]

/-- An operand is not extended where the next token binds no tighter than what stands to the left. -/
theorem ends_extendWhile_stop {p : Precedence}
    (h : s.next.token.kind.precedence.rank ≤ p.rank) (rounds : Nat) :
    Ends (extendWhile expression p rounds left) s onOption onFault ↔ onOption left s := by
  cases rounds with
  | zero => exact Iff.rfl
  | succ rounds =>
      simp only [extendWhile, ends_bind, ends_peek, ends_ite, Nat.not_lt.mpr h, if_false, ends_pure]

end Extend

end Parse

end ExprLang
