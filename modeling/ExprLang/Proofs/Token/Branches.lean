import ExprLang.Token.Lexeme

/-!
# The choice of a lexeme

Of the branches for lexemes the first one that matches is taken. The order matters where several of
them match, so what is taken is also told by the first two characters, of which one is enough unless
there is a comment or an operator of two characters.
-/

namespace ExprLang

/-- The kinds of brackets, punctuation marks and operators. -/
def Kind.isMark (k : Kind) : Bool :=
  k.hasFixedText && !Kind.keywords.contains k

namespace Lexeme

/-- What is taken at the head of a text is what the first branch that matches says, and those before
it do not match. A line feed is what no branch matches. -/
theorem first_branch (c : Char) (rest : List Char) :
    (∃ front b behind count, branches = front ++ b :: behind ∧
        (∀ b' ∈ front, b'.match? c rest = none) ∧ b.match? c rest = some count ∧
        first c rest = (b.cls, count)) ∨
      c = '\n' ∧ (∀ b ∈ branches, b.match? c rest = none) ∧ first c rest = (.lineFeed, 0) := by
  cases hf : branches.findSome? fun b => (b.match? c rest).map (b.cls, ·) with
  | some found =>
      obtain ⟨front, b, behind, hsplit, hb, hfront⟩ := List.findSome?_eq_some_iff.mp hf
      obtain ⟨count, hcount, rfl⟩ := Option.map_eq_some_iff.mp hb
      refine Or.inl ⟨front, b, behind, count, hsplit, ?_, hcount, ?_⟩
      · intro b' hb'
        exact Option.map_eq_none_iff.mp (hfront b' hb')
      · rw [first, hf]
        rfl
  | none =>
      have hnone : ∀ b ∈ branches, b.match? c rest = none := by
        intro b hb
        exact Option.map_eq_none_iff.mp (List.findSome?_eq_none_iff.mp hf b hb)
      refine Or.inr ⟨?_, hnone, ?_⟩
      · simpa [Branch.match?] using hnone .illegal (by decide)
      · rw [first, hf]
        rfl

/-- What holds wherever a branch matches holds of what is taken, if it holds of a line feed. -/
theorem first_induction {p : LexemeClass → Nat → Prop} (c : Char) (rest : List Char)
    (hb : ∀ b ∈ branches, ∀ count, b.match? c rest = some count → p b.cls count)
    (hf : c = '\n' → p .lineFeed 0) : p (first c rest).1 (first c rest).2 := by
  obtain ⟨front, b, behind, count, hsplit, -, hcount, h⟩ | ⟨hc, -, h⟩ := first_branch c rest
  · rw [h]
    exact hb b (by simp [hsplit]) count hcount
  · rw [h]
    exact hf hc

/-- A branch of one text matches where this text stands. -/
theorem take_of_match? {kind : Kind} {c d : Char} {rest behind : List Char} {count : Nat}
    (h : (Branch.fixed kind d behind).match? c rest = some count) :
    c :: rest.take count = d :: behind := by
  simp only [Branch.match?, Option.ite_none_right_eq_some, Bool.and_eq_true, beq_iff_eq,
    List.isPrefixOf_iff_prefix, Option.some.injEq] at h
  obtain ⟨⟨rfl, hp⟩, rfl⟩ := h
  rw [← List.prefix_iff_eq_take.mp hp]

/-- A lexeme ends within the text that it starts. -/
theorem first_count_le (c : Char) (rest : List Char) : (first c rest).2 ≤ rest.length := by
  apply first_induction (p := fun _ count => count ≤ rest.length) c rest
  · intro b _ count h
    cases b with
    | fixed kind d behind =>
        simp only [Branch.match?, Option.ite_none_right_eq_some, Bool.and_eq_true,
          List.isPrefixOf_iff_prefix, Option.some.injEq] at h
        rw [← h.2]
        exact h.1.2.length_le
    | comment =>
        simp only [Branch.match?] at h
        split at h
        · next text =>
            have hle := (List.takeWhile_prefix (· != '\n') (l := text)).length_le
            cases h
            simp only [List.length_cons]
            omega
        · cases h
    | name | digits =>
        simp only [Branch.match?, Option.ite_none_right_eq_some, Option.some.injEq] at h
        rw [← h.2]
        exact (List.takeWhile_prefix _).length_le
    | blank | illegal => 
        simp [Branch.match?] at h
        omega
  · intro _
    exact Nat.zero_le _

/-! ### Looking ahead -/

/-- The kind of a bracket, punctuation mark or operator of one character. -/
def symbol? : Char → Option Kind
  | '(' => some .leftParen
  | ')' => some .rightParen
  | '{' => some .leftBrace
  | '}' => some .rightBrace
  | '[' => some .leftBracket
  | ']' => some .rightBracket
  | ';' => some .semicolon
  | ',' => some .comma
  | '+' => some .plus
  | '-' => some .minus
  | '*' => some .star
  | '/' => some .slash
  | '<' => some .less
  | '>' => some .greater
  | '=' => some .assign
  | '!' => some .bang
  | _ => none

/-- The kind of an operator of two characters. -/
def pair? : Char → Char → Option Kind
  | '=', '=' => some .equal
  | '!', '=' => some .notEqual
  | '<', '=' => some .atMost
  | '>', '=' => some .atLeast
  | _, _ => none

/-- The lexeme of one character, or of a run that starts with it, and how many of the characters
behind it belong to it. -/
def single (c : Char) (rest : List Char) : LexemeClass × Nat :=
  match symbol? c with
  | some kind => (.token kind, 0)
  | none =>
      if isNameStart c then (.name, (rest.takeWhile isNameChar).length)
      else if c.isDigit then (.token .integer, (rest.takeWhile Char.isDigit).length)
      else if isSpace c then (.blank, 0)
      else if c == '\n' then (.lineFeed, 0)
      else (.token .illegal, 0)

/-- The lexeme that starts with a character, told by that character and the one behind it. -/
def lookahead (c : Char) : List Char → LexemeClass × Nat
  | [] => single c []
  | d :: rest =>
      if c == '/' && d == '/' then (.comment, 1 + (rest.takeWhile (· != '\n')).length)
      else
        match pair? c d with
        | some kind => (.token kind, 1)
        | none => single c (d :: rest)

/-- Whether a branch of one text is for a mark and has the text of the mark. -/
def Branch.isSpelled : Branch → Bool
  | fixed kind c behind => kind.isMark && kind.text.toList == c :: behind && (symbol? c).isSome
  | _ => true

/-- A branch of one text is for a mark and has its text, and `symbol?` knows the first character. -/
theorem fixed_of_mem {kind : Kind} {c : Char} {behind : List Char}
    (h : .fixed kind c behind ∈ branches) :
    kind.isMark = true ∧ kind.text.toList = c :: behind ∧ symbol? c ≠ none := by
  have hall : ∀ b ∈ branches, b.isSpelled = true := by decide
  simpa [Branch.isSpelled, Option.isSome_iff_ne_none, and_assoc] using hall _ h

/-- No mark matches at a character that starts none. -/
theorem match?_of_symbol_eq_none {c : Char} (h : symbol? c = none) (rest : List Char) {b : Branch}
    (hb : b ∈ marks) : b.match? c rest = none := by
  cases b with
  | fixed kind d behind =>
      have hd := (fixed_of_mem (List.mem_append_left _ hb)).2.2
      have hne : c ≠ d := fun heq => hd (heq ▸ h)
      simp [Branch.match?, hne]
  | comment =>
      have hne : c ≠ '/' := by
        rintro rfl
        cases h
      simp [Branch.match?, hne]
  | name | digits | blank | illegal => exact absurd hb (by decide)

theorem first_of_symbol_eq_none {c : Char} (h : symbol? c = none) (rest : List Char) :
    first c rest = single c rest := by
  have hmarks : marks.findSome? (fun b => (b.match? c rest).map (b.cls, ·)) = none := by
    rw [List.findSome?_eq_none_iff]
    intro b hb
    rw [match?_of_symbol_eq_none h rest hb, Option.map_none]
  rw [first, branches, List.findSome?_append, hmarks, single, h]
  simp only [List.findSome?_cons, List.findSome?_nil, Branch.match?, Branch.cls, Option.none_or]
  by_cases hs : isNameStart c = true
  · simp [hs]
  by_cases hd : c.isDigit = true
  · simp [hs, hd]
  by_cases hb : isSpace c = true
  · simp [hs, hd, hb]
  by_cases hf : c = '\n'
  · subst hf
    rfl
  · simp [hs, hd, hb, hf]

/-- What is taken is told by the first two characters. -/
theorem first_eq_lookahead (c : Char) (rest : List Char) : first c rest = lookahead c rest := by
  by_cases hs : symbol? c = none
  · rw [first_of_symbol_eq_none hs]
    cases rest with
    | nil => rfl
    | cons d rest =>
        have hslash : (c == '/' && d == '/') = false := by
          rw [Bool.and_eq_false_iff, beq_eq_false_iff_ne]
          apply Or.inl
          rintro rfl
          cases hs
        have hpair : pair? c d = none := by
          unfold pair?
          split
          case h_5 => rfl
          all_goals cases hs
        simp [lookahead, hslash, hpair]
  · unfold symbol? at hs
    split at hs
    -- A slash can start a comment, and these four an operator of two characters.
    case h_12 =>
      cases rest with
      | nil => rfl
      | cons d rest =>
          by_cases hd : d = '/'
          · subst hd
            rfl
          · simp [first, branches, marks, Branch.match?, Branch.cls, lookahead, pair?, single,
              symbol?, hd]
    case h_13 | h_14 | h_15 | h_16 =>
      cases rest with
      | nil => rfl
      | cons d rest =>
          by_cases hd : d = '='
          · subst hd
            rfl
          · simp [first, branches, marks, Branch.match?, Branch.cls, lookahead, pair?, single,
              symbol?, hd, Ne.symm hd]
    case h_17 => exact absurd rfl hs
    all_goals
      cases rest <;> rfl

end Lexeme

end ExprLang
