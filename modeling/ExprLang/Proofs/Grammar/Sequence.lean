import ExprLang.Proofs.Grammar.Printed
import ExprLang.Proofs.Parsing.Termination
import ExprLang.Proofs.Token.Lines

/-!
# Statements in front of a program

Statements that are all ended by a semicolon and a program on the lines below do not disturb each
other. The statements are read as they are, whatever follows, and the program is read as if it stood
alone, only one line further down.

## Implementation notes

When the semicolon of the last statement has been read, the state is that of a parse of the program
alone with all tokens at their new places. From there on the two parses run side by side.
-/

namespace ExprLang

namespace Node

open Token (Scans)
open Lexeme (separates)

/-- The text of statements, the last of which is ended by a semicolon as well. -/
def endedText (ns : List Node) : String :=
  printStatements ns ++ (if ns.getLast?.any isEvaluated then ";" else "")

/-- The tokens of statements that are ended by semicolons. -/
def endedTokens (ns : List Node) : List Token :=
  ns.flatMap fun n => n.tokens ++ terminatorTokens n

theorem endedText_cons_cons (n next : Node) (rest : List Node) :
    endedText (n :: next :: rest) = n.print ++ n.terminator ++ endedText (next :: rest) := by
  simp [endedText, printStatements, String.append_assoc]

theorem scans_endedText {ns : List Node} (hne : ns ≠ [])
    (h : ∀ n ∈ ns, Scans separates n.print n.tokens) :
    Scans separates (endedText ns) (endedTokens ns) := by
  induction ns with
  | nil => exact absurd rfl hne
  | cons n rest ih =>
      rw [List.forall_mem_cons] at h
      cases rest with
      | nil =>
          by_cases he : n.isEvaluated = true
          · have hs := h.1.append scans_semicolon fun _ _ => rfl
            simpa [endedText, endedTokens, printStatements, terminatorTokens, he] using
              hs.imp fun _ _ => rfl
          · simpa [endedText, endedTokens, printStatements, terminatorTokens, he] using h.1
      | cons next rest =>
          have hrest := ih (by simp) h.2
          have hn := h.1.append (scans_terminator n) fun rest _ => separates_terminator n rest
          rw [endedText_cons_cons]
          exact hn.append hrest fun _ _ => rfl

theorem readable_endedTokens {ns : List Node} (h : ∀ n ∈ ns, WellFormed .statement n) :
    Token.Readable (endedTokens ns) := by
  intro t ht
  obtain ⟨n, hn, ht⟩ := List.mem_flatMap.mp ht
  have hr : Token.Readable (n.tokens ++ terminatorTokens n) := by
    rw [Token.readable_append]
    constructor
    · exact (readable_tokens n).mpr (readable_bareTokens (h n hn))
    · unfold terminatorTokens
      split <;> simp
  exact hr t ht

end Node

namespace Parse

/-- What a step ends with is what it is defined to end with. -/
theorem ends_self {α : Type} (step : Parse α) (s : ParseState) :
    Ends step s (fun a s' => step s = .ok a s') anyFault := by
  unfold Ends
  cases step s with
  | ok a s' => rfl
  | error fault s' => exact True.intro

theorem programStatements_of_left_eq_zero (statement : Parse (Option Node)) (n : Nat)
    {s : ParseState} (h : s.left = 0) : programStatements statement n s = .ok [] s := by
  cases n with
  | zero => rfl
  | succ n => exact congrFun (if_pos (kind_of_left_eq_zero h)) s

end Parse

namespace Grammar

open Parse
open Node (endedTokens)

/-- A statement that is ended by a semicolon is read up to it, whatever follows. -/
theorem WrittenStatement.reads {n : Node} (h : WrittenStatement n) {us : List Token}
    {ds : List Diagnostic} {s : ParseState}
    (hs : Stands (n.tokens ++ Node.terminatorTokens n ++ us) ds s) (depth : Nat) :
    Ends (statement depth) s (Yields n.unplaced us ds) anyFault := by
  obtain ⟨ts, hts, hu⟩ := h.unended
  rw [hts, List.append_assoc] at hs
  have hstops : Stops (leading (Kind.semicolon.token :: us)) := ⟨rfl, by simp [Kind.token]⟩
  simpa [Kind.token] using (hu _).reads depth s ds hs hstops

/-- Reading statements that are ended by semicolons leads to the state behind them, unless the
nesting limit is reached. -/
theorem reads_endedStatements {ns : List Node} (h : ∀ n ∈ ns, WrittenStatement n)
    {us : List Token} {ds : List Diagnostic} {depth rounds : Nat} {s : ParseState}
    (hs : Stands (endedTokens ns ++ us) ds s) (hr : s.left ≤ rounds) :
    Ends (programStatements (statement depth) rounds) s
      (fun nodes s' => LimitReached s' ∨
        ∃ first rest behind n, nodes = first ++ rest ∧
          first.map Node.unplaced = ns.map Node.unplaced ∧
          Follows s behind ∧ Stands us ds behind ∧ behind.left ≤ n ∧
          programStatements (statement depth) n behind = .ok rest s') anyFault := by
  induction ns generalizing s rounds with
  | nil =>
      apply (ends_self _ s).imp
      intro nodes s' hrun
      exact Or.inr ⟨[], nodes, s, rounds, rfl, rfl, Follows.refl s, hs, hr, hrun⟩
  | cons n rest ih =>
      rw [List.forall_mem_cons] at h
      rw [endedTokens, List.flatMap_cons, List.append_assoc] at hs
      obtain ⟨-, -, hinput⟩ :=
        exists_of_startsStatement (h.1.terminated (endedTokens rest ++ us)).starts
      have hk : s.token.kind ≠ .endOfInput := by
        rw [hs.kind]
        exact hinput
      cases rounds with
      | zero => exact absurd (Nat.le_zero.mp hr) (Nat.ne_of_gt (ParseState.left_pos hk))
      | succ rounds =>
          rw [ends_programStatements_succ _ _ hk]
          apply ((h.1.reads hs depth).and (orderly_statement depth s)).mono
          · rintro _ s₁ ⟨⟨⟨m, rfl, hm⟩, hs₁⟩, hf, -⟩
            have hf₁ : Follows s s₁.next := hf.trans (Follows.next s₁)
            have hl : s₁.next.left ≤ rounds := by
              have hl := hf.left_le
              rw [ParseState.next_left]
              omega
            apply (ih h.2 hs₁ hl).imp
            rintro nodes s₂ (hlimit | ⟨first, more, behind, n', rfl, hfirst, hb, hst, hn', hrun⟩)
            · exact Or.inl hlimit
            · exact Or.inr ⟨m :: first, more, behind, n', rfl, by simp [hm, hfirst], hf₁.trans hb,
                hst, hn', hrun⟩
          · intro fault s₁ _
            split
            · exact Or.inl ⟨_, List.mem_append_right _ (List.mem_singleton_self _), rfl⟩
            · exact True.intro

end Grammar

section Below

variable {line program : String} {s : ParseState}

/-- Where the tokens of a program below a line are still to come, they are those of the program,
moved down. -/
theorem pending_of_follows (hu : Text.isUnbroken line.toList = true)
    (hf : Parse.Follows { stream := .ofProgram (line ++ "\n" ++ program) } s)
    (hs : s.upcoming = (Token.ofProgram program).map Token.unplaced) :
    s.stream.pending = (Token.ofProgram program).map (Moving.down 1).token := by
  have hp : s.stream.pending <:+ Token.ofProgram (line ++ "\n" ++ program) := hf.pending
  rw [Token.ofProgram_append_lineFeed hu] at hp
  have hl : s.stream.pending.length =
      ((Token.ofProgram program).map (Moving.down 1).token).length := by
    rw [← ParseState.length_upcoming, hs, List.length_map, List.length_map]
  have hsuffix := List.suffix_of_suffix_length_le hp (List.suffix_append _ _) (Nat.le_of_eq hl)
  exact hsuffix.eq_of_length hl

/-- The state behind a line of statements is that of a parse of the program below it, moved down. -/
theorem eq_state_of_follows (hu : Text.isUnbroken line.toList = true)
    (hne : program.toList ≠ [])
    (hf : Parse.Follows { stream := .ofProgram (line ++ "\n" ++ program) } s)
    (hd : s.diagnostics = [])
    (hs : s.upcoming = (Token.ofProgram program).map Token.unplaced) :
    s = (Moving.down 1).state { stream := .ofProgram program } := by
  have hp := pending_of_follows hu hf hs
  have he : s.stream.endPlace = (Moving.down 1).span (Token.endPlace program) :=
    hf.endPlace.trans (Token.endPlace_append_lineFeed hu hne)
  obtain ⟨⟨pending, endPlace⟩, diagnostics⟩ := s
  subst hp he hd
  rfl

/-- The statements below a line are those of the program alone, and so are the diagnostics, one line
further down. -/
theorem statements_below {depth n : Nat} {nodes below : List Node} {t t' : ParseState}
    (hu : Text.isUnbroken line.toList = true)
    (hf : Parse.Follows { stream := .ofProgram (line ++ "\n" ++ program) } s)
    (hs : Grammar.Stands ((Token.ofProgram program).map Token.unplaced) [] s) (hn : s.left ≤ n)
    (halone : Parse.programStatements (Parse.statement depth) (Token.ofProgram program).length
      { stream := .ofProgram program } = .ok nodes t)
    (hbelow : Parse.programStatements (Parse.statement depth) n s = .ok below t') :
    below.map Node.unplaced = nodes.map Node.unplaced ∧
      t'.diagnostics = t.diagnostics.map (Moving.down 1).diagnostic := by
  by_cases hne : program.toList = []
  · have ht : Token.ofProgram program = [] := by simp [Token.ofProgram, hne, Token.ofLines]
    have hleft : s.left = 0 := by
      rw [ParseState.left, ← ParseState.length_upcoming, hs.upcoming, ht]
      rfl
    rw [Parse.programStatements_of_left_eq_zero _ _ hleft] at hbelow
    rw [Parse.programStatements_of_left_eq_zero _ _ (by simp [ParseState.left,
      TokenStream.ofProgram, ht])] at halone
    cases hbelow
    cases halone
    exact ⟨rfl, hs.diagnostics⟩
  · have haligned := eq_state_of_follows hu hne hf hs.diagnostics hs.upcoming
    have hunbounded := Parse.unbounded_of_orderly (Parse.orderly_expression depth)
      (Parse.orderly_statement depth)
    have hagrees := Parse.Repeats.agrees (A := Parse.moved (Moving.down 1))
      (Parse.alike_programRound (Or.inl rfl))
      (hunbounded.programStatements { stream := .ofProgram program } _ (Nat.le_refl _))
      (hunbounded.programStatements s n hn) haligned
    rw [hbelow] at hagrees
    change Parse.Agrees _ _ (Parse.programStatements _ (Token.ofProgram program).length _) _
      at hagrees
    rw [halone] at hagrees
    obtain ⟨t'', hok, hstate⟩ := hagrees True.intro
    obtain ⟨hnodes, hstates⟩ := EStateM.Result.ok.inj hok
    rw [hnodes, hstates, hstate]
    constructor
    · simp [Function.comp_def]
    · rfl

end Below

/-- Statements that are ended by semicolons and a program below them do not disturb each other. Read
together they have the statements of both, and the diagnostics of the program one line further down.
-/
theorem parseWithin_below_statements {ns : List Node} (hne : ns ≠ [])
    (hw : ∀ n ∈ ns, n.WellFormed .statement) {depth : Nat} {program : String} {alone : Parsed}
    (h : parseWithin depth program = .ok alone) :
    (alone.WithinLimit →
      ∃ parsed, parseWithin depth (Node.endedText ns ++ "\n" ++ program) = .ok parsed ∧
        (2 * (Token.ofProgram (Node.endedText ns ++ "\n" ++ program)).length + 1 < depth →
          parsed.WithinLimit)) ∧
    ∀ parsed, parseWithin depth (Node.endedText ns ++ "\n" ++ program) = .ok parsed →
      parsed.WithinLimit →
      ∃ nodes span, alone.tree = .program nodes span ∧
        parsed.tree.sameAs (.program (ns ++ nodes) span) = true ∧
        parsed.diagnostics = alone.diagnostics.map (Moving.down 1).diagnostic ∧
        parsed.diagnostics.map Diagnostic.message = alone.diagnostics.map Diagnostic.message ∧
        parsed.diagnostics.map Diagnostic.span = alone.diagnostics.map fun d =>
          { d.span with startLine := d.span.startLine + 1, endLine := d.span.endLine + 1 } := by
  have hscans := Node.scans_endedText hne fun n hn => Node.scans_print (hw n hn)
  have htokens := hscans.unplaced_ofLine rfl 1
  have hjoint := Token.ofProgram_append_lineFeed hscans.unbroken program
  constructor
  · intro hl
    have hline : Token.Readable (Token.ofLine 1 (Node.endedText ns).toList) := by
      rw [← Token.readable_map_unplaced, htokens]
      exact Node.readable_endedTokens hw
    have hbelow : Token.Readable (Token.ofProgram program) := by
      rw [← Token.beforeEnd_ofProgram]
      exact TokenStream.readable_of_parseWithin h hl
    have hread : Token.Readable (Token.ofProgram (Node.endedText ns ++ "\n" ++ program)) := by
      rw [hjoint, Token.readable_append]
      exact ⟨hline, List.forall_mem_map.mpr hbelow⟩
    obtain ⟨parsed, hp⟩ :
        ∃ parsed, parseWithin depth (Node.endedText ns ++ "\n" ++ program) = .ok parsed :=
      TokenStream.exists_parseWithin depth hread
    exact ⟨parsed, hp, fun hd => TokenStream.withinLimit_of_lt hp hd⟩
  · intro parsed hp hl
    obtain ⟨nodes, span, t, htree, hdiagnostics, halone⟩ :=
      TokenStream.parseWithin_ends (Parse.ends_self _ _) h
    have hstands : Grammar.Stands
        (Node.endedTokens ns ++ (Token.ofProgram program).map Token.unplaced) []
        { stream := .ofProgram (Node.endedText ns ++ "\n" ++ program) } := by
      refine ⟨?_, rfl⟩
      change (Token.ofProgram _).map Token.unplaced = _
      rw [hjoint, List.map_append, htokens, List.map_map]
      rfl
    obtain ⟨_, span', t', htree', hdiagnostics', hlimit | hread⟩ :=
      TokenStream.parseWithin_ends (Grammar.reads_endedStatements
        (fun n hn => Grammar.writtenAt (hw n hn)) hstands (Nat.le_refl _)) hp
    · obtain ⟨d, hd, hc⟩ := hlimit
      rw [← hdiagnostics'] at hd
      exact absurd hc (hl d hd)
    · obtain ⟨first, below, s, n, rfl, hfirst, hf, hs, hn, hbelow⟩ := hread
      obtain ⟨hnodes, hmoved⟩ :=
        statements_below hscans.unbroken hf hs hn halone hbelow
      have hds : parsed.diagnostics = alone.diagnostics.map (Moving.down 1).diagnostic := by
        rw [hdiagnostics', hdiagnostics, hmoved]
      refine ⟨nodes, span, htree, ?_, hds, ?_, ?_⟩
      · rw [htree', Node.sameAs_iff]
        simp [Node.unplaced, Node.unplacedAll_eq_map, hfirst, hnodes]
      · rw [hds, List.map_map]
        exact List.map_congr_left fun d _ => Moving.message_diagnostic _ d
      · rw [hds, List.map_map]
        rfl

/-- A program that starts with tokens which could go on with an expression, below an expression that
is ended by a semicolon. -/
theorem parseWithin_below_statements_malformed :
    ∃ ns : List Node, ns ≠ [] ∧ (∀ n ∈ ns, n.WellFormed .statement) ∧
      Node.endedText ns = "let a = 1; b;" ∧
      ∃ alone, parseWithin 40 "(c [ + d\nelse" = .ok alone ∧ alone.diagnostics.length = 4 ∧
        ∃ parsed, parseWithin 40 (Node.endedText ns ++ "\n" ++ "(c [ + d\nelse") = .ok parsed ∧
          parsed.diagnostics = alone.diagnostics.map (Moving.down 1).diagnostic := by
  have hw : ∀ n ∈ [Node.letBinding ⟨"a", .nowhere⟩ (.integer 1 .nowhere) .nowhere,
      .evaluated (.identifier "b" .nowhere) .nowhere], n.WellFormed .statement := by
    rw [List.forall_mem_cons, List.forall_mem_singleton]
    constructor
    · exact .letBinding rfl (.integer (by decide) (by decide))
    · exact .evaluated (.identifier rfl)
  obtain ⟨alone, h, hd, hl⟩ : ∃ alone, parseWithin 40 "(c [ + d\nelse" = .ok alone ∧
      alone.diagnostics.length = 4 ∧ alone.WithinLimit := ⟨_, rfl, rfl, by decide⟩
  obtain ⟨hread, hsame⟩ := parseWithin_below_statements (by simp) hw h
  obtain ⟨parsed, hp, hlimit⟩ := hread hl
  obtain ⟨-, -, -, -, hds, -⟩ := hsame parsed hp (hlimit (by decide))
  exact ⟨_, by simp, hw, rfl, alone, h, hd, parsed, hp, hds⟩

end ExprLang
