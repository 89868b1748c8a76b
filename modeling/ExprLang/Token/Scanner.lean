import ExprLang.Token.Scan

/-!
# Scanners

A scanner hands out the tokens of a program: the next one, all that are left, or the first few of
those that are left. It comes to a line only when the tokens of the lines before it are handed out.
When nothing is left it makes the token of the end of the input, and from then on it hands out that
token. It also tells the end of the input and the tokens of any line at any time.

## Implementation notes

All ways of taking tokens ask for one token after the other, so none is taken before it is needed.
-/

namespace ExprLang

/-- The tokens of a program that are still to come: those of a line that are ready, and the lines
behind it. -/
structure Feed where
  ready : List Token
  /-- The number of the first one of the lines. -/
  number : Int
  lines : List (List Char)
deriving DecidableEq, Repr

namespace Feed

/-- The first token of some lines, and what comes behind it. -/
def firstOf (number : Int) : List (List Char) → Option (Token × Feed)
  | [] => none
  | line :: rest =>
      match Token.ofLine number line with
      | [] => firstOf (number + 1) rest
      | t :: ready => some (t, ⟨ready, number + 1, rest⟩)

/-- The next token, and what comes behind it. -/
def next? (f : Feed) : Option (Token × Feed) :=
  match f.ready with
  | t :: ready => some (t, { f with ready })
  | [] => firstOf f.number f.lines

/-- All tokens that are still to come. -/
def left (f : Feed) : List Token :=
  f.ready ++ Token.ofLines f.number f.lines

theorem firstOf_eq_none {number : Int} {lines : List (List Char)}
    (h : firstOf number lines = none) : Token.ofLines number lines = [] := by
  induction lines generalizing number with
  | nil => rfl
  | cons line rest ih =>
      rw [firstOf] at h
      cases ht : Token.ofLine number line with
      | nil =>
          rw [ht] at h
          rw [Token.ofLines, ht, ih h, List.append_nil]
      | cons t ready => simp [ht] at h

theorem firstOf_eq_some {number : Int} {lines : List (List Char)} {t : Token} {f : Feed}
    (h : firstOf number lines = some (t, f)) : Token.ofLines number lines = t :: f.left := by
  induction lines generalizing number with
  | nil => cases h
  | cons line rest ih =>
      rw [firstOf] at h
      cases ht : Token.ofLine number line with
      | nil =>
          rw [ht] at h
          rw [Token.ofLines, ht, ih h, List.nil_append]
      | cons t' ready =>
          rw [ht] at h
          cases h
          rw [Token.ofLines, ht]
          rfl

theorem next?_eq_none {f : Feed} (h : f.next? = none) : f.left = [] := by
  obtain ⟨ready, number, lines⟩ := f
  cases ready with
  | nil => exact firstOf_eq_none h
  | cons t ready => cases h

theorem next?_eq_some {f f' : Feed} {t : Token} (h : f.next? = some (t, f')) :
    f.left = t :: f'.left := by
  obtain ⟨ready, number, lines⟩ := f
  cases ready with
  | nil => exact firstOf_eq_some h
  | cons t' ready =>
      cases h
      rfl

end Feed

/-- What is left of a program, and the end of the input if it was reached. -/
structure Scanner where
  program : String
  feed : Feed
  ended : Option { t : Token // t.kind = .endOfInput } := none
deriving DecidableEq, Repr

namespace Scanner

/-- A scanner that has not handed out anything. -/
def ofProgram (program : String) : Scanner where
  program
  feed := ⟨[], 1, Text.lines program.toList⟩

/-- The next token; the same end of the input for ever once there is no other. -/
def next (s : Scanner) : Token × Scanner :=
  match s.ended with
  | some t => (t, s)
  | none =>
      match s.feed.next? with
      | some (t, feed) => (t, { s with feed })
      | none => (Token.endOf s.program, { s with ended := some ⟨Token.endOf s.program, rfl⟩ })

theorem next_left_lt {s : Scanner} (h : s.next.1.kind ≠ .endOfInput) :
    s.next.2.feed.left.length < s.feed.left.length := by
  unfold next at h ⊢
  split at h
  · next t _ => exact absurd t.property h
  · split at h
    · next t feed hf => simp [Feed.next?_eq_some hf]
    · exact absurd rfl h

/-- All tokens that are left, up to and with the end of the input. -/
def scan (s : Scanner) : List Token × Scanner :=
  if _h : s.next.1.kind = .endOfInput then ([s.next.1], s.next.2)
  else
    let rest := s.next.2.scan
    (s.next.1 :: rest.1, rest.2)
termination_by s.feed.left.length
decreasing_by exact next_left_lt _h

/-- The first tokens of an iteration, which stops before the end of the input. -/
def take (s : Scanner) : (count : Nat) → List Token × Scanner
  | 0 => ([], s)
  | count + 1 =>
      if s.next.1.kind = .endOfInput then ([], s.next.2)
      else
        let rest := s.next.2.take count
        (s.next.1 :: rest.1, rest.2)

/-- What can be asked of a scanner. -/
inductive Call where
  /-- The next token. -/
  | next
  /-- All tokens that are left. -/
  | scan
  /-- The first tokens of an iteration. -/
  | take (count : Nat)
  /-- The end of the input, wherever the scanner is. -/
  | ending
  /-- The tokens of a line, which need not be one of the program. -/
  | line (number : Int) (text : List Char)
deriving DecidableEq, Repr

/-- The answer to a call, and the scanner behind it. -/
def call (s : Scanner) : Call → List Token × Scanner
  | .next => ([s.next.1], s.next.2)
  | .scan => s.scan
  | .take count => s.take count
  | .ending => ([Token.endOf s.program], s)
  | .line number text => (Token.ofLine number text, s)

/-- The answers to calls that are made one after the other, and the scanner behind them. -/
def run (s : Scanner) : List Call → List (List Token) × Scanner
  | [] => ([], s)
  | c :: rest =>
      let answered := s.call c
      let later := answered.2.run rest
      (answered.1 :: later.1, later.2)

end Scanner

end ExprLang
