import ExprLang.Proofs.Parsing.Alike
import ExprLang.Proofs.Parsing.Steps

/-!
# A lower nesting limit cuts a parse short

A parse with fewer levels does what a parse with more levels does, up to where it gives up. Nothing
that was read or listed by then is lost: the statements that are finished and the diagnostics are the
first ones of the parse with more levels.

## Implementation notes

A statement that is nested too deeply is given up in the midst of rules that call each other, and
some of them have finished statements of their own by then. These statements are not part of the
tree, but the diagnostics about them are listed. So the relation of two steps compares the state in
which the shorter one gives up with the one in which the longer one ends, and not the results.
-/

namespace ExprLang

namespace Parse

/-- Of two steps, the first ends as the second does, or it gives up in a state from which the second
goes on. -/
def Truncates {α : Type} (s : ParseState) (step step' : Parse α) : Prop :=
  Follows s (final (step' s)) ∧
    (step' s = step s ∨ ∃ t, step s = .error .tooDeep t ∧ Follows t (final (step' s)))

theorem Truncates.bind {α β : Type} {s : ParseState} {step step' : Parse α} {f f' : α → Parse β}
    (h : Truncates s step step')
    (hf : ∀ a s', step s = .ok a s' ∨ step' s = .ok a s' → Truncates s' (f a) (f' a)) :
    Truncates s (step >>= f) (step' >>= f') := by
  obtain ⟨hfollows, hstep⟩ := h
  cases hs' : step' s with
  | error fault s₁ =>
      rw [hs'] at hfollows hstep
      rw [Truncates, bind_of_error hs']
      constructor
      · exact hfollows
      · rcases hstep with hs | ⟨t, hs, ht⟩
        · exact Or.inl (bind_of_error hs.symm).symm
        · exact Or.inr ⟨t, bind_of_error hs, ht⟩
  | ok a s₁ =>
      obtain ⟨hnext, hlast⟩ := hf a s₁ (Or.inr hs')
      rw [hs'] at hfollows hstep
      rw [Truncates, bind_of_ok hs']
      constructor
      · exact hfollows.trans hnext
      · rcases hstep with hs | ⟨t, hs, ht⟩
        · rw [bind_of_ok hs.symm]
          exact hlast
        · exact Or.inr ⟨t, bind_of_error hs, ht.trans hnext⟩

theorem composes_truncates : Composes Truncates where
  looks {_ s _ _} h := by
    rw [Truncates, h]
    exact ⟨Follows.refl s, Or.inl rfl⟩
  advance s := ⟨Follows.next s, Or.inl rfl⟩
  complain {s d} _ := ⟨Follows.noting s d.complaint d.span, Or.inl rfl⟩
  unreadable s _ := ⟨Follows.refl s, Or.inl rfl⟩
  bind := Truncates.bind

/-- A step that goes forward goes on from where a step without a level gives up. -/
theorem truncates_tooDeep {α : Type} {failed : α → Prop} {step : Parse α} (h : Orderly failed step)
    (s : ParseState) : Truncates s (throw .tooDeep) step := by
  have hf : Follows s (final (step s)) := by
    cases hs : step s with
    | ok a s' => exact ((h s).ok hs).1
    | error fault s' => exact ((h s).error hs).1
  exact ⟨hf, Or.inr ⟨s, rfl, hf⟩⟩

theorem statement_truncates {depth depth' : Nat} (hd : depth ≤ depth') (s : ParseState) :
    Truncates s (statement depth) (statement depth') :=
  (composes_truncates.readers hd
    (fun levels p => truncates_tooDeep (orderly_expression levels p))
    (fun levels => truncates_tooDeep (orderly_statement levels))).2 s

/-! ### Programs -/

/-- A program is what its statements are, with a span. -/
theorem program_eq (depth : Nat) (s : ParseState) :
    program depth s =
      match programStatements (statement depth) s.stream.pending.length s with
      | .ok ns t => .ok (.program ns (s.token.span.cover t.token.span)) t
      | .error fault t => .error fault t := by
  simp only [program, bind_of_ok (show current s = .ok s.token s from rfl),
    bind_of_ok (show remaining s = .ok s.stream.pending.length s from rfl)]
  simp only [bind, EStateM.bind]
  cases programStatements (statement depth) s.stream.pending.length s with
  | ok ns t => rfl
  | error fault t => rfl

/-- One round of reading statements, by how the next statement ends. -/
theorem programStatements_succ (statement : Parse (Option Node)) (rounds : Nat) {s : ParseState}
    (hk : s.token.kind ≠ .endOfInput) :
    programStatements statement (rounds + 1) s =
      match statement s with
      | .ok n s₁ => ((n.toList ++ ·) <$> programStatements statement rounds) s₁.next
      | .error .tooDeep s₁ => .ok [] (s₁.noting .nestedTooDeep s₁.token.span)
      | .error fault s₁ => .error fault s₁ := by
  rw [programStatements, bind_of_ok (show current s = .ok s.token s from rfl), if_neg hk]
  simp only [bind, EStateM.bind, guarded]
  cases statement s with
  | ok n s₁ => rfl
  | error fault s₁ => cases fault <;> rfl

/-- No statement is read at the end of the input. -/
theorem programStatements_of_end (statement : Parse (Option Node)) (rounds : Nat) {s : ParseState}
    (hk : s.token.kind = .endOfInput) : programStatements statement (rounds + 1) s = .ok [] s := by
  rw [programStatements, bind_of_ok (show current s = .ok s.token s from rfl), if_pos hk]
  rfl

/-- Statements read with fewer levels are those read with more levels, or a statement is given up and
those before it are the first ones of those read with more levels. -/
theorem programStatements_truncated {depth depth' : Nat} (hd : depth ≤ depth') (rounds : Nat)
    (s : ParseState) :
    programStatements (statement depth') rounds s = programStatements (statement depth) rounds s ∨
      ∃ ns t, programStatements (statement depth) rounds s =
          .ok ns (t.noting .nestedTooDeep t.token.span) ∧
        Ends (programStatements (statement depth') rounds) s
          (fun ns' s' => ns <+: ns' ∧ Follows t s') anyFault := by
  induction rounds generalizing s with
  | zero => exact Or.inl rfl
  | succ rounds ih =>
      by_cases hk : s.token.kind = .endOfInput
      · left
        rw [programStatements_of_end _ _ hk, programStatements_of_end _ _ hk]
      obtain ⟨-, heq | ⟨t, ht, hfollows⟩⟩ := statement_truncates hd s
      · -- Both read the same next statement.
        rw [programStatements_succ _ _ hk, programStatements_succ _ _ hk, heq]
        cases hs : statement depth s with
        | error fault s₁ =>
            left
            cases fault <;> rfl
        | ok n s₁ =>
            obtain hrest | ⟨ns, t, hrest, hends⟩ := ih s₁.next
            · left
              simp only [Functor.map, EStateM.map, hrest]
            · right
              refine ⟨n.toList ++ ns, t, ?_, ?_⟩
              · simp only [Functor.map, EStateM.map, hrest]
              · rw [ends_programStatements_succ _ _ hk]
                apply Ends.of_ok (heq.trans hs)
                apply hends.imp
                intro ns' s' h'
                exact ⟨(List.prefix_append_right_inj _).mpr h'.1, h'.2⟩
      · -- The next statement is given up.
        right
        refine ⟨[], t, ?_, ?_⟩
        · rw [programStatements_succ _ _ hk, ht]
        · rw [ends_programStatements_succ _ _ hk]
          apply (ends_run (statement depth') s).mono
          · intro n s₁ hs
            rw [hs] at hfollows
            apply (programStatements_orderly (orderly_statement depth') rounds).mono
            · intro ns' s' h'
              exact ⟨List.nil_prefix, hfollows.trans ((Follows.next s₁).trans h')⟩
            · intros
              trivial
          · intro fault s₁ hs
            rw [hs] at hfollows
            split
            · exact ⟨List.nil_prefix, hfollows.trans (Follows.noting s₁ _ _)⟩
            · trivial

end Parse

/-- A fault of a parse is one with more levels, too. -/
theorem TokenStream.parseWithin_of_error {stream : TokenStream} {depth depth' : Nat} {fault : Fault}
    (hd : depth ≤ depth') (h : stream.parseWithin depth = .error fault) :
    stream.parseWithin depth' = .error fault := by
  rw [parseWithin, Parse.program_eq] at h ⊢
  obtain heq | ⟨ns, t, hgiven, -⟩ :=
    Parse.programStatements_truncated hd stream.pending.length { stream }
  · rw [heq]
    exact h
  · rw [hgiven] at h
    cases h

/-- Where a parse gives up a statement for its nesting, it lists this last and once. -/
theorem TokenStream.diagnostics_of_not_withinLimit {stream : TokenStream} {depth : Nat}
    {parsed : Parsed} (h : stream.parseWithin depth = .ok parsed) (hl : ¬ parsed.WithinLimit) :
    ∃ front place, parsed.diagnostics = front ++ [⟨.nestedTooDeep, place⟩] ∧
      ∀ d ∈ front, d.complaint ≠ .nestedTooDeep := by
  obtain ⟨s, -, hs, hd | hd⟩ := exists_proceeds h
  · rw [Parsed.WithinLimit, hd] at hl
    exact absurd hs hl
  · exact ⟨s.diagnostics, s.token.span, hd, hs⟩

/-- A parse with fewer levels has its statements, and all diagnostics but one about its nesting, in
common with a parse with more levels, which goes on behind them. -/
theorem TokenStream.prefix_of_parseWithin {stream : TokenStream} {depth depth' : Nat}
    {parsed parsed' : Parsed} (hd : depth ≤ depth') (h : stream.parseWithin depth = .ok parsed)
    (h' : stream.parseWithin depth' = .ok parsed') {front : List Diagnostic} {place : Span}
    (hf : parsed.diagnostics = front ++ [⟨.nestedTooDeep, place⟩]) :
    front <+: parsed'.diagnostics ∧ ∃ statements span statements' span',
      parsed.tree = .program statements span ∧ parsed'.tree = .program statements' span' ∧
        statements <+: statements' := by
  obtain ⟨statements, span, s, ht, hs, hrun⟩ := parseWithin_ends (ends_run _ _) h
  obtain ⟨statements', span', s', ht', hs', hrun'⟩ := parseWithin_ends (ends_run _ _) h'
  obtain heq | ⟨ns, t, hgiven, hends⟩ :=
    Parse.programStatements_truncated hd stream.pending.length { stream }
  · rw [hrun, hrun'] at heq
    cases heq
    constructor
    · rw [hs', ← hs, hf]
      exact List.prefix_append front _
    · exact ⟨statements, span, statements, span', ht, ht', List.prefix_refl statements⟩
  · rw [hrun] at hgiven
    cases hgiven
    obtain ⟨hfirst, hfollows⟩ := hends.ok hrun'
    have hfront : front = t.diagnostics := (List.append_inj' (hf.symm.trans hs) rfl).1
    constructor
    · rw [hfront, hs']
      exact hfollows.diagnostics
    · exact ⟨statements, span, statements', span', ht, ht', hfirst⟩

/-- With more levels, a parse that keeps to its nesting limit is the same. One that does not has a
last diagnostic that says so, the only one of this kind; its statements and its other diagnostics are
the first ones of a parse with more levels. -/
theorem parseWithin_truncates {depth depth' : Nat} {program : String} {parsed : Parsed}
    (hd : depth ≤ depth') (h : parseWithin depth program = .ok parsed) :
    (parsed.WithinLimit → parseWithin depth' program = .ok parsed) ∧
      (¬ parsed.WithinLimit → ∃ front place,
        parsed.diagnostics = front ++ [⟨.nestedTooDeep, place⟩] ∧
        (∀ d ∈ front, d.complaint ≠ .nestedTooDeep) ∧
        ∀ parsed', parseWithin depth' program = .ok parsed' →
          front <+: parsed'.diagnostics ∧ ∃ statements span statements' span',
            parsed.tree = .program statements span ∧ parsed'.tree = .program statements' span' ∧
              statements <+: statements') := by
  constructor
  · intro hl
    exact TokenStream.parseWithin_deeper h hl hd
  · intro hl
    obtain ⟨front, place, hf, hnone⟩ := TokenStream.diagnostics_of_not_withinLimit h hl
    refine ⟨front, place, hf, hnone, ?_⟩
    intro parsed' h'
    exact TokenStream.prefix_of_parseWithin hd h h' hf

/-- Two levels are enough for the first statements of this program and for the diagnostic about one of
them, and not for the array. -/
theorem parseWithin_truncates_nested :
    ∃ parsed parsed', parseWithin 2 "1; let 2; [[3]]; 4" = .ok parsed ∧ ¬ parsed.WithinLimit ∧
      parseWithin 4 "1; let 2; [[3]]; 4" = .ok parsed' ∧ parsed'.WithinLimit ∧
      ∃ front place, parsed.diagnostics = front ++ [⟨.nestedTooDeep, place⟩] ∧
        front <+: parsed'.diagnostics ∧ ∃ statements span statements' span',
          parsed.tree = .program statements span ∧ parsed'.tree = .program statements' span' ∧
            statements <+: statements' := by
  obtain ⟨parsed, h, hl⟩ :
      ∃ parsed, parseWithin 2 "1; let 2; [[3]]; 4" = .ok parsed ∧ ¬ parsed.WithinLimit :=
    ⟨_, rfl, by decide⟩
  obtain ⟨parsed', h', hl'⟩ :
      ∃ parsed', parseWithin 4 "1; let 2; [[3]]; 4" = .ok parsed' ∧ parsed'.WithinLimit :=
    ⟨_, rfl, by decide⟩
  obtain ⟨front, place, hf, -, hfirst⟩ := (parseWithin_truncates (by decide : 2 ≤ 4) h).2 hl
  exact ⟨parsed, parsed', h, hl, h', hl', front, place, hf, hfirst parsed' h'⟩

end ExprLang
