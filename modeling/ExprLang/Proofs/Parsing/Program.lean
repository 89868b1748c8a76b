import ExprLang.Parsing.Program
import ExprLang.Proofs.Parsing.Orderly

/-!
# The end of a parse

What holds at the end of reading a program comes from what holds at the end of its statements. The
nesting limit is no fault of a whole program: it is listed, and the parse ends with what it has. So
a parse has a tree unless some integer token cannot be read.
-/

namespace ExprLang

/-- No statement of the program was given up for its nesting. -/
def Parsed.WithinLimit (parsed : Parsed) : Prop :=
  ∀ d ∈ parsed.diagnostics, d.complaint ≠ .nestedTooDeep

instance (parsed : Parsed) : Decidable parsed.WithinLimit :=
  inferInstanceAs (Decidable (∀ d ∈ parsed.diagnostics, d.complaint ≠ .nestedTooDeep))

namespace Parse

variable {s : ParseState} {onFault : Fault → ParseState → Prop}

@[simp] theorem ends_guarded {onResult : Option (Option Node) → ParseState → Prop}
    (statement : Parse (Option Node)) :
    Ends (guarded statement) s onResult onFault ↔
      Ends statement s (fun n s' => onResult (some n) s') (fun fault s' =>
        if fault = .tooDeep then onResult none (s'.noting .nestedTooDeep s'.token.span)
        else onFault fault s') := by
  unfold Ends guarded
  cases hs : statement s with
  | ok n s' => rfl
  | error fault s' => cases fault <;> rfl

/-- One round of reading statements: what has to hold of the statement that is next. -/
theorem ends_programStatements_succ {onResult : List Node → ParseState → Prop}
    (statement : Parse (Option Node)) (rounds : Nat) (h : s.token.kind ≠ .endOfInput) :
    Ends (programStatements statement (rounds + 1)) s onResult onFault ↔
      Ends statement s
        (fun n s' => Ends (programStatements statement rounds) s'.next
          (fun rest s'' => onResult (n.toList ++ rest) s'') onFault)
        (fun fault s' =>
          if fault = .tooDeep then onResult [] (s'.noting .nestedTooDeep s'.token.span)
          else onFault fault s') := by
  simp only [programStatements, ends_bind, ends_current, ends_ite, h, if_false, ends_guarded,
    ends_advance, ends_pure]

/-- No statement is read where the input ends. -/
theorem ends_programStatements_of_end {onResult : List Node → ParseState → Prop}
    (statement : Parse (Option Node)) (rounds : Nat) (h : s.token.kind = .endOfInput) :
    Ends (programStatements statement rounds) s onResult onFault ↔ onResult [] s := by
  cases rounds with
  | zero => exact Iff.rfl
  | succ rounds =>
      simp only [programStatements, ends_bind, ends_current, ends_ite, h, if_true, ends_pure]

theorem programStatements_orderly {statement : Parse (Option Node)}
    (hs : Orderly (· = none) statement) (rounds : Nat) :
    Ends (programStatements statement rounds) s (fun _ s' => Follows s s')
      (fun fault s' => Follows s s' ∧ Explained s fault ∧ fault ≠ .tooDeep) := by
  induction rounds generalizing s with
  | zero => exact Follows.refl s
  | succ rounds ih =>
      by_cases hk : s.token.kind = .endOfInput
      · rw [ends_programStatements_of_end statement _ hk]
        exact Follows.refl s
      · rw [ends_programStatements_succ statement rounds hk]
        refine Ends.mono (hs s) ?_ ?_
        · rintro n s' ⟨hf, -⟩
          have hn : Follows s s'.next := hf.trans (Follows.next s')
          refine Ends.mono ih (fun _ _ hr => hn.trans hr) ?_
          rintro fault s'' ⟨hr, he, ht⟩
          exact ⟨hn.trans hr, he.of_follows hn, ht⟩
        · rintro fault s' ⟨hf, he⟩
          by_cases ht : fault = .tooDeep
          · rw [if_pos ht]
            exact hf.trans (Follows.noting s' _ _)
          · rw [if_neg ht]
            exact ⟨hf, he, ht⟩

end Parse

namespace TokenStream

variable {depth : Nat} {stream : TokenStream} {parsed : Parsed}

/-- What holds at the end of the statements holds at the end of the program. -/
theorem ends_program {onResult : List Node → ParseState → Prop}
    {onFault : Fault → ParseState → Prop}
    (h : Ends
      (Parse.programStatements (Parse.statement depth) stream.pending.length) { stream }
      onResult onFault) :
    Ends (Parse.program depth) { stream }
      (fun n s => ∃ statements span, n = .program statements span ∧ onResult statements s)
      onFault := by
  simp only [Parse.program, ends_bind, Parse.ends_current, Parse.ends_remaining,
    Parse.ends_spanFrom, ends_pure]
  exact h.imp fun statements s hr => ⟨statements, _, rfl, hr⟩

/-- The tree and the diagnostics of a parse are those at its end. -/
theorem parseWithin_ends {onResult : List Node → ParseState → Prop}
    {onFault : Fault → ParseState → Prop}
    (h : Ends
      (Parse.programStatements (Parse.statement depth) stream.pending.length) { stream }
      onResult onFault)
    (hp : stream.parseWithin depth = .ok parsed) :
    ∃ statements span s, parsed.tree = .program statements span ∧
      parsed.diagnostics = s.diagnostics ∧ onResult statements s := by
  unfold parseWithin at hp
  cases hs : Parse.program depth { stream } with
  | error fault s => simp [hs] at hp
  | ok tree s =>
      obtain ⟨statements, span, ht, hr⟩ := (ends_program h).ok hs
      simp only [hs, Except.ok.injEq] at hp
      subst hp
      exact ⟨statements, span, s, ht, rfl, hr⟩

/-- A parse whose statements end without a fault has a tree. -/
theorem exists_parseWithin_of_ends {onResult : List Node → ParseState → Prop}
    (h : Ends
      (Parse.programStatements (Parse.statement depth) stream.pending.length) { stream }
      onResult (fun _ _ => False)) :
    ∃ statements span s,
      stream.parseWithin depth = .ok ⟨.program statements span, s.diagnostics⟩ ∧
        onResult statements s := by
  unfold parseWithin
  cases hs : Parse.program depth { stream } with
  | error fault s => exact ((ends_program h).error hs).elim
  | ok tree s =>
      obtain ⟨statements, span, rfl, hr⟩ := (ends_program h).ok hs
      exact ⟨statements, span, s, rfl, hr⟩

/-- A parse has a program as its tree, or it ends with the fault of an integer token that cannot be
read. -/
theorem parseWithin_cases (depth : Nat) (stream : TokenStream) :
    (∃ statements span diagnostics,
        stream.parseWithin depth = .ok ⟨.program statements span, diagnostics⟩) ∨
      ∃ t ∈ stream.pending, t.kind = .integer ∧
        ∃ reason, Text.readInt t.text = .error reason ∧
          stream.parseWithin depth = .error (.unreadableInteger reason) := by
  have hend := ends_program (Parse.programStatements_orderly (s := { stream })
    (Parse.orderly_statement depth) stream.pending.length)
  unfold parseWithin
  cases hs : Parse.program depth { stream } with
  | ok tree s =>
      obtain ⟨statements, span, rfl, -⟩ := hend.ok hs
      exact Or.inl ⟨statements, span, s.diagnostics, rfl⟩
  | error fault s =>
      obtain ⟨-, ht | ⟨t, hm, hk, reason, hr, rfl⟩, hn⟩ := hend.error hs
      · exact absurd ht hn
      · exact Or.inr ⟨t, hm, hk, reason, hr, rfl⟩

/-- A parse has a tree if all integer tokens can be read. -/
theorem exists_parseWithin (depth : Nat)
    (h : ∀ t ∈ stream.pending, t.kind = .integer → ∃ value, Text.readInt t.text = .ok value) :
    ∃ parsed, stream.parseWithin depth = .ok parsed := by
  obtain ⟨statements, span, diagnostics, hp⟩ | ⟨t, hm, hk, reason, hr, -⟩ :=
    parseWithin_cases depth stream
  · exact ⟨_, hp⟩
  · obtain ⟨value, hv⟩ := h t hm hk
    rw [hv] at hr
    cases hr

end TokenStream

end ExprLang
