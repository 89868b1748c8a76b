import ExprLang.Proofs.Parsing.Program
import ExprLang.Proofs.Syntax.Scanning

/-!
# Parentheses at the nesting limit

An integer in parentheses takes a level for every pair of them, one more for itself and one for its
statement. With as many levels it is read, and with fewer the parse gives it up. So a program of
parentheses tells how many levels there are.
-/

namespace ExprLang

/-- The digit `1` in so many pairs of parentheses. -/
def parens : Nat → String
  | 0 => "1"
  | count + 1 => "(" ++ parens count ++ ")"

theorem eq_of_mem_parens {count : Nat} {c : Char} (h : c ∈ (parens count).toList) :
    c = '(' ∨ c = '1' ∨ c = ')' := by
  induction count with
  | zero => exact Or.inr (Or.inl (by simpa [parens] using h))
  | succ count ih =>
      have hc : c = '(' ∨ c ∈ (parens count).toList ∨ c = ')' := by
        simpa [parens, or_assoc] using h
      obtain h | h | h := hc
      · exact Or.inl h
      · exact ih h
      · exact Or.inr (Or.inr h)

namespace Token

/-- The tokens of the digit `1` in so many pairs of parentheses. -/
def parens : Nat → List Token
  | 0 => [⟨"1", .integer, Span.nowhere⟩]
  | count + 1 => Node.parenthesized (parens count)

theorem scans_parens (count : Nat) :
    Scans Lexeme.separates (ExprLang.parens count) (parens count) := by
  induction count with
  | zero => exact scans_numeral (by decide)
  | succ count ih => exact Node.scans_parenthesized ih

theorem unplaced_parens (count : Nat) :
    (ofProgram (ExprLang.parens count)).map unplaced = parens count :=
  (scans_parens count).unplaced_ofProgram rfl

theorem exists_parens_cons (count : Nat) :
    ∃ t rest, parens count = t :: rest ∧ (t.kind = .integer ∨ t.kind = .leftParen) := by
  cases count with
  | zero => exact ⟨_, _, rfl, Or.inl rfl⟩
  | succ count => exact ⟨_, _, rfl, Or.inr rfl⟩

end Token

namespace Parse

variable {s : ParseState} {rest : List Token} {depth count : Nat}

/-- A closing parenthesis and the end of the input bind least of all. -/
theorem rank_of_closed (hs : s.next.upcoming = rest)
    (hr : ∀ t ∈ rest.head?, t.kind = .rightParen) :
    s.next.token.kind.precedence.rank ≤ Precedence.lowest.rank := by
  cases rest with
  | nil => rw [ParseState.kind_of_upcoming_nil hs]; decide
  | cons t rest => rw [ParseState.kind_of_upcoming hs, hr t rfl]; decide

/-- Behind the first parenthesis stands what it encloses, and then the last one. -/
theorem next_upcoming_of_parens (hs : s.upcoming = Token.parens (count + 1) ++ rest) :
    s.next.upcoming = Token.parens count ++ Kind.rightParen.token :: rest := by
  rw [ParseState.next_upcoming, hs]
  simp [Token.parens, Node.parenthesized]

/-- With a level for every pair of parentheses and one for the integer, all of them are read. -/
theorem expression_parens (hs : s.upcoming = Token.parens count ++ rest)
    (hr : ∀ t ∈ rest.head?, t.kind = .rightParen) :
    Ends (expression (depth + count + 1) .lowest) s
      (fun e s' => (∃ span, e = some (.integer 1 span)) ∧ s'.diagnostics = s.diagnostics ∧
        s'.next.upcoming = rest) (fun _ _ => False) := by
  -- The tokens behind are left general, as the closing parentheses come to stand there one by one.
  induction count generalizing s rest with
  | zero =>
      have hk : s.token.kind = .integer := ParseState.kind_of_upcoming hs
      have ht : s.token.text = "1" := ParseState.text_of_upcoming hs
      have hread : Text.readInt "1" = .ok 1 := rfl
      have hnext : s.next.upcoming = rest := by rw [ParseState.next_upcoming, hs]; rfl
      have hmax : ¬ maxInteger < 1 := by decide
      simp only [expression, expressionBy, ends_bind, ends_current, hk, operandRule?, integer, ht,
        hread, if_neg hmax, ends_pure, ends_remaining,
        ends_extendWhile_stop (rank_of_closed hnext hr)]
      exact ⟨⟨_, rfl⟩, trivial, hnext⟩
  | succ count ih =>
      have hk : s.token.kind = .leftParen := ParseState.kind_of_upcoming hs
      have hnext := next_upcoming_of_parens hs
      simp only [expression, expressionBy, ends_bind, ends_current, hk, operandRule?, grouped,
        ends_advance, ends_expecting, ends_pure, ends_remaining]
      apply (ih hnext (by simp [Kind.token])).imp
      rintro e s' ⟨he, hd, hs'⟩
      have hclose : s'.next.token.kind = .rightParen := ParseState.kind_of_upcoming hs'
      have hbehind : s'.next.next.upcoming = rest := by rw [ParseState.next_upcoming, hs']; rfl
      rw [if_pos hclose, ends_extendWhile_stop (rank_of_closed hbehind hr)]
      exact ⟨he, hd, hbehind⟩

/-- With fewer levels the expression is given up. -/
theorem expression_parens_of_le (h : depth ≤ count) (hs : s.upcoming = Token.parens count ++ rest) :
    Ends (expression depth .lowest) s (fun _ _ => False)
      (fun fault s' => fault = .tooDeep ∧ s'.diagnostics = s.diagnostics) := by
  -- Every level reads one parenthesis, so the last level comes to one more.
  induction depth generalizing s count rest with
  | zero => exact ⟨rfl, rfl⟩
  | succ depth ih =>
      obtain ⟨count, rfl⟩ : ∃ c, count = c + 1 := ⟨count - 1, by omega⟩
      have hk : s.token.kind = .leftParen := ParseState.kind_of_upcoming hs
      have hnext := next_upcoming_of_parens hs
      simp only [expression, expressionBy, ends_bind, ends_current, hk, operandRule?, grouped,
        ends_advance]
      exact (ih (Nat.le_of_succ_le_succ h) hnext).imp fun _ _ hf => hf.elim

/-- The tokens are read as a statement that is an expression. -/
theorem ends_statement_parens (hs : s.upcoming = Token.parens count)
    {onResult : Option Node → ParseState → Prop} {onFault : Fault → ParseState → Prop} :
    Ends (statement (depth + 1)) s onResult onFault ↔
      Ends (expressionStatement (expression depth)) s onResult onFault := by
  obtain ⟨t, rest, ht, hkind⟩ := Token.exists_parens_cons count
  have hk : s.token.kind = t.kind := ParseState.kind_of_upcoming (hs.trans ht)
  obtain h | h := hkind <;>
    simp only [statement, statementBy, ends_bind, ends_current, hk, h]

theorem statement_parens (h : count + 2 ≤ depth) (hs : s.upcoming = Token.parens count) :
    Ends (statement depth) s
      (fun n s' => (∃ place place', n = some (.evaluated (.integer 1 place) place')) ∧
        s'.diagnostics = s.diagnostics ∧ s'.next.upcoming = []) (fun _ _ => False) := by
  obtain ⟨depth, rfl⟩ : ∃ d, depth = d + count + 1 + 1 := ⟨depth - (count + 2), by omega⟩
  have hs' : s.upcoming = Token.parens count ++ [] := hs.trans (List.append_nil _).symm
  rw [ends_statement_parens hs]
  simp only [expressionStatement, ends_bind, ends_current, ends_spanFrom, ends_skipSemicolon,
    ends_pure]
  apply (expression_parens hs' (by simp)).imp
  rintro e s' ⟨⟨place, rfl⟩, hd, hnext⟩
  rw [if_neg (by rw [ParseState.kind_of_upcoming_nil hnext]; decide)]
  exact ⟨⟨place, _, rfl⟩, hd, hnext⟩

theorem statement_parens_of_lt (h : depth < count + 2) (hs : s.upcoming = Token.parens count) :
    Ends (statement depth) s (fun _ _ => False)
      (fun fault s' => fault = .tooDeep ∧ s'.diagnostics = s.diagnostics) := by
  cases depth with
  | zero => exact ⟨rfl, rfl⟩
  | succ depth =>
      have hs' : s.upcoming = Token.parens count ++ [] := hs.trans (List.append_nil _).symm
      rw [ends_statement_parens hs]
      simp only [expressionStatement, ends_bind, ends_current]
      exact (expression_parens_of_le (by omega) hs').imp fun _ _ hf => hf.elim

/-- The tokens are those of one statement. -/
theorem ends_programStatements_parens (hs : s.upcoming = Token.parens count)
    (statement : Parse (Option Node)) {onResult : List Node → ParseState → Prop}
    {onFault : Fault → ParseState → Prop} :
    ∃ rounds, Ends (programStatements statement s.stream.pending.length) s onResult onFault ↔
      Ends statement s
        (fun n s' => Ends (programStatements statement rounds) s'.next
          (fun rest s'' => onResult (n.toList ++ rest) s'') onFault)
        (fun fault s' =>
          if fault = .tooDeep then onResult [] (s'.noting .nestedTooDeep s'.token.span)
          else onFault fault s') := by
  obtain ⟨t, rest, ht, hkind⟩ := Token.exists_parens_cons count
  have hlength : s.stream.pending.length = rest.length + 1 := by
    rw [← ParseState.length_upcoming, hs, ht, List.length_cons]
  have hk : s.token.kind ≠ .endOfInput := by
    rw [ParseState.kind_of_upcoming (hs.trans ht)]
    obtain h | h := hkind <;> simp [h]
  rw [hlength]
  exact ⟨rest.length, ends_programStatements_succ statement rest.length hk⟩

end Parse

namespace TokenStream

variable (stream : TokenStream) {depth count : Nat}

/-- With a level for every pair of parentheses and two more, a program of them is read. -/
theorem parseWithin_parens (h : count + 2 ≤ depth)
    (hs : stream.pending.map Token.unplaced = Token.parens count) :
    ∃ place place' place'', stream.parseWithin depth =
      .ok ⟨.program [.evaluated (.integer 1 place) place'] place'', []⟩ := by
  have hend : Ends (Parse.programStatements (Parse.statement depth) stream.pending.length)
      { stream }
      (fun statements s => (∃ place place', statements = [.evaluated (.integer 1 place) place']) ∧
        s.diagnostics = [])
      (fun _ _ => False) := by
    obtain ⟨rounds, hrounds⟩ :=
      Parse.ends_programStatements_parens (s := { stream }) hs (Parse.statement depth)
    rw [hrounds]
    refine (Parse.statement_parens (s := { stream }) h hs).mono ?_ ?_
    · rintro n s ⟨⟨place, place', rfl⟩, hd, hnext⟩
      rw [Parse.ends_programStatements_of_end _ _ (ParseState.kind_of_upcoming_nil hnext)]
      exact ⟨⟨place, place', rfl⟩, hd⟩
    · rintro fault s hf
      exact hf.elim
  obtain ⟨statements, span, s, hp, ⟨place, place', rfl⟩, hd⟩ := exists_parseWithin_of_ends hend
  rw [hd] at hp
  exact ⟨place, place', span, hp⟩

/-- With fewer levels it is given up. -/
theorem parseWithin_parens_of_lt (h : depth < count + 2)
    (hs : stream.pending.map Token.unplaced = Token.parens count) :
    ∃ place place', stream.parseWithin depth =
      .ok ⟨.program [] place, [⟨.nestedTooDeep, place'⟩]⟩ := by
  have hend : Ends (Parse.programStatements (Parse.statement depth) stream.pending.length)
      { stream }
      (fun statements s => statements = [] ∧ ∃ place, s.diagnostics = [⟨.nestedTooDeep, place⟩])
      (fun _ _ => False) := by
    obtain ⟨rounds, hrounds⟩ :=
      Parse.ends_programStatements_parens (s := { stream }) hs (Parse.statement depth)
    rw [hrounds]
    refine (Parse.statement_parens_of_lt (s := { stream }) h hs).mono ?_ ?_
    · rintro n s hf
      exact hf.elim
    · rintro fault s ⟨rfl, hd⟩
      rw [if_pos rfl]
      refine ⟨rfl, s.token.span, ?_⟩
      rw [ParseState.noting, hd]
      rfl
  obtain ⟨statements, span, s, hp, rfl, place, hd⟩ := exists_parseWithin_of_ends hend
  rw [hd] at hp
  exact ⟨span, place, hp⟩

end TokenStream

end ExprLang
