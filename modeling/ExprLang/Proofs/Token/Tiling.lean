import ExprLang.Proofs.Token.Reading
import ExprLang.Text.Slice
import Mathlib.Data.List.TakeWhile

/-!
# Tokens tile a program

The lexemes of a line follow one another without a gap from its first column to its last. So the
tokens of a program stand in the order of the text and do not overlap, the text of a token is what
stands at its place, and what stands in no token is white space or a comment.

## Implementation notes

`Lexeme.cut` passes over the characters of a lexeme one by one. `Tiles` is the same cut made lexeme
by lexeme, and everything about the places of lexemes is an induction over it.
-/

namespace ExprLang

namespace Span

/-- A span ends before another one starts, or where it starts. -/
def Before (a b : Span) : Prop :=
  a.endLine < b.startLine ∨ a.endLine = b.startLine ∧ a.endColumn ≤ b.startColumn

/-- A span on one line takes in a column of a line. -/
def Takes (s : Span) (line column : Int) : Prop :=
  s.startLine = line ∧ s.startColumn ≤ column ∧ column < s.endColumn

end Span

namespace Text

theorem isUnbroken_cons {c : Char} {text : List Char} :
    isUnbroken (c :: text) = true ↔ isLineBreak c = false ∧ isUnbroken text = true := by
  simp [isUnbroken]

/-- The lines of a text have no line breaks. -/
theorem isUnbroken_of_mem_lines {text line : List Char} (h : line ∈ lines text) :
    isUnbroken line = true := by
  induction text using lines.induct generalizing line with
  | case1 => simp [lines] at h
  | case2 rest ih =>
      rw [lines, List.mem_cons] at h
      obtain rfl | h := h
      · rfl
      · exact ih h
  | case3 c rest hcr hc ih =>
      rw [lines, if_pos hc, List.mem_cons] at h
      · obtain rfl | h := h
        · rfl
        · exact ih h
      · exact hcr
  | case4 c rest hcr hc ih =>
      have hc := Bool.eq_false_iff.mpr hc
      rw [lines_cons hc] at h
      cases hl : lines rest with
      | nil =>
          rw [hl, prependToLine, List.mem_singleton] at h
          rw [h, isUnbroken_cons]
          exact ⟨hc, rfl⟩
      | cons first others =>
          rw [hl] at ih
          rw [hl, prependToLine, List.mem_cons] at h
          obtain rfl | h := h
          · exact isUnbroken_cons.mpr ⟨hc, ih List.mem_cons_self⟩
          · exact ih (List.mem_cons_of_mem _ h)

theorem lineFeed_notMem {text : List Char} (h : isUnbroken text = true) : '\n' ∉ text := by
  intro hm
  have hb := List.all_eq_true.mp h '\n' hm
  exact absurd hb (by decide)

/-- Without a line feed, what stands before the first one is the whole text. -/
theorem takeWhile_of_lineFeed_notMem {text : List Char} (h : '\n' ∉ text) :
    text.takeWhile (· != '\n') = text := by
  rw [List.takeWhile_eq_self_iff]
  intro c hc
  have hne : c ≠ '\n' := by
    rintro rfl
    exact h hc
  simpa using hne

/-- What stands between two parts of a text is the slice at its place. -/
theorem slice_append (front items behind : List Char) :
    slice (front ++ items ++ behind) front.length (front.length + items.length : Nat) = items := by
  have hle : front.length + items.length ≤ (front ++ items ++ behind).length := by simp
  rw [slice, before, bound_natCast hle, bound_natCast (by omega), ← List.length_append,
    List.take_left, List.drop_left]

end Text

namespace Lexeme

/-! ### The first lexeme of a text -/

/-- A lexeme is a token, or it is a comment up to the end of the line, a blank or a line feed. -/
theorem first_cases (c : Char) (rest : List Char) :
    (∃ kind, (first c rest).1 = .token kind) ∨ (first c rest).1 = .name ∨
      (∃ text, c = '/' ∧ rest = '/' :: text ∧
        first c rest = (.comment, 1 + (text.takeWhile (· != '\n')).length)) ∨
      (isSpace c = true ∧ first c rest = (.blank, 0)) ∨
      (c = '\n' ∧ first c rest = (.lineFeed, 0)) := by
  obtain ⟨front, b, behind, count, -, -, h, hf⟩ | ⟨hc, -, hf⟩ := first_branch c rest
  · rw [hf]
    cases b with
    | fixed kind d behind => exact Or.inl ⟨kind, rfl⟩
    | digits => exact Or.inl ⟨.integer, rfl⟩
    | illegal => exact Or.inl ⟨.illegal, rfl⟩
    | name => exact Or.inr (Or.inl rfl)
    | comment =>
        simp only [Branch.match?] at h
        split at h
        · next text =>
            cases h
            exact Or.inr (Or.inr (Or.inl ⟨text, rfl, rfl, rfl⟩))
        · cases h
    | blank =>
        simp only [Branch.match?, Option.ite_none_right_eq_some, Option.some.injEq] at h
        rw [← h.2]
        exact Or.inr (Or.inr (Or.inr (Or.inl ⟨h.1, rfl⟩)))
  · exact Or.inr (Or.inr (Or.inr (Or.inr ⟨hc, hf⟩)))

/-! ### Lexemes one behind the other -/

/-- The lexemes of a text from a column on, each of them behind the one before. -/
inductive Tiles : Nat → List Char → List Lexeme → Prop where
  | nil {column : Nat} : Tiles column [] []
  | cons {column : Nat} {c : Char} {rest : List Char} {ls : List Lexeme}
      (h : Tiles (column + (first c rest).2 + 1) (rest.drop (first c rest).2) ls) :
      Tiles column (c :: rest)
        (⟨(first c rest).1, column, c :: rest.take (first c rest).2⟩ :: ls)

/-- The characters that belong to the lexeme before are passed over. -/
theorem cut_skip (skip column : Nat) (text : List Char) :
    cut skip column text = cut 0 (column + skip) (text.drop skip) := by
  induction text generalizing skip column with
  | nil => cases skip <;> rfl
  | cons c rest ih =>
      cases skip with
      | zero => rfl
      | succ skip =>
          rw [cut, ih, Nat.add_right_comm, Nat.add_assoc, List.drop_succ_cons]

theorem tiles_cut (column : Nat) (text : List Char) : Tiles column text (cut 0 column text) := by
  cases text with
  | nil => exact .nil
  | cons c rest =>
      have hrest := tiles_cut (column + (first c rest).2 + 1) (rest.drop (first c rest).2)
      rw [cut, cut_skip, Nat.add_right_comm]
      exact .cons hrest
termination_by text.length

section Tiles

variable {column : Nat} {text : List Char} {ls : List Lexeme} {l : Lexeme}

/-- Every lexeme stands at its column, with the class and the length of the first one there. -/
theorem Tiles.exists_first (h : Tiles column text ls) (hl : l ∈ ls) :
    ∃ front c rest, text = front ++ c :: rest ∧
      l = ⟨(first c rest).1, column + front.length, c :: rest.take (first c rest).2⟩ := by
  induction h with
  | nil => cases hl
  | @cons column c rest ls h ih =>
      obtain rfl | hl := List.mem_cons.mp hl
      · exact ⟨[], c, rest, rfl, rfl⟩
      · obtain ⟨front, d, behind, hd, rfl⟩ := ih hl
        refine ⟨c :: rest.take (first c rest).2 ++ front, d, behind, ?_, ?_⟩
        · rw [List.append_assoc, ← hd, List.cons_append, List.take_append_drop]
        · have hle := first_count_le c rest
          simp only [mk.injEq, true_and, and_true, List.length_append, List.length_cons,
            List.length_take]
          omega

/-- A lexeme ends before the next one starts. -/
theorem Tiles.pairwise (h : Tiles column text ls) :
    ls.Pairwise fun l l' => l.column + l.text.length ≤ l'.column := by
  induction h with
  | nil => exact .nil
  | @cons column c rest ls h ih =>
      refine .cons (fun l hl => ?_) ih
      obtain ⟨front, d, behind, -, rfl⟩ := h.exists_first hl
      have hle := first_count_le c rest
      simp only [List.length_cons, List.length_take]
      omega

/-- Every character belongs to a lexeme. -/
theorem Tiles.exists_mem (h : Tiles column text ls) {i : Nat} (hi : i < text.length) :
    ∃ l ∈ ls, l.column ≤ column + i ∧ column + i < l.column + l.text.length := by
  induction h generalizing i with
  | nil => cases hi
  | @cons column c rest ls h ih =>
      have hle := first_count_le c rest
      by_cases hfirst : i ≤ (first c rest).2
      · refine ⟨_, List.mem_cons_self, Nat.le_add_right _ _, ?_⟩
        simp only [List.length_cons, List.length_take]
        omega
      · obtain ⟨k, rfl⟩ : ∃ k, i = (first c rest).2 + 1 + k := ⟨i - (first c rest).2 - 1, by omega⟩
        simp only [List.length_cons] at hi
        obtain ⟨l, hl, hcolumn, hstop⟩ := ih (i := k) (by simp only [List.length_drop]; omega)
        refine ⟨l, List.mem_cons_of_mem _ hl, ?_, ?_⟩ <;> omega

/-- A comment starts with two slashes, and on a line it is the last lexeme. -/
theorem Tiles.comment (h : Tiles column text ls) (hn : '\n' ∉ text) (hl : l ∈ ls)
    (hc : l.cls = .comment) :
    l.column + l.text.length = column + text.length ∧
      ∃ front behind, text = front ++ '/' :: '/' :: behind ∧ l.column = column + front.length := by
  obtain ⟨front, c, rest, rfl, rfl⟩ := h.exists_first hl
  obtain ⟨kind, hf⟩ | hf | ⟨behind, rfl, rfl, hf⟩ | ⟨-, hf⟩ | ⟨-, hf⟩ := first_cases c rest
  · simp [hf] at hc
  · simp [hf] at hc
  · have hall : behind.takeWhile (· != '\n') = behind :=
      Text.takeWhile_of_lineFeed_notMem fun hm => hn (by simp [hm])
    constructor
    · rw [hall] at hf
      simp only [hf, List.length_cons, List.length_append, List.length_take]
      omega
    · exact ⟨front, behind, rfl, rfl⟩
  · simp [hf] at hc
  · simp [hf] at hc

/-- A blank on a line is a space or a tab. -/
theorem Tiles.blank (h : Tiles column text ls) (hu : Text.isUnbroken text = true) (hl : l ∈ ls)
    (hc : l.cls = .blank) :
    ∃ front c behind, text = front ++ c :: behind ∧ l.column = column + front.length ∧
      l.text = [c] ∧ (c = ' ' ∨ c = '\t') := by
  obtain ⟨front, c, rest, rfl, rfl⟩ := h.exists_first hl
  obtain ⟨kind, hf⟩ | hf | ⟨behind, -, -, hf⟩ | ⟨hs, hf⟩ | ⟨-, hf⟩ := first_cases c rest
  · simp [hf] at hc
  · simp [hf] at hc
  · simp [hf] at hc
  · refine ⟨front, c, rest, rfl, rfl, by simp [hf], ?_⟩
    have hb : Text.isLineBreak c = false := by
      simpa using List.all_eq_true.mp hu c (by simp)
    simp only [isSpace, List.mem_cons, List.not_mem_nil, or_false, decide_eq_true_eq] at hs
    obtain rfl | rfl | rfl | rfl | rfl := hs
    · exact Or.inl rfl
    · exact absurd hb (by decide)
    · exact Or.inr rfl
    · exact absurd hb (by decide)
    · exact absurd hb (by decide)
  · simp [hf] at hc

/-- There is no line feed on a line. -/
theorem Tiles.cls_ne_lineFeed (h : Tiles column text ls) (hn : '\n' ∉ text) (hl : l ∈ ls) :
    l.cls ≠ .lineFeed := by
  obtain ⟨front, c, rest, rfl, rfl⟩ := h.exists_first hl
  intro hc
  obtain ⟨kind, hf⟩ | hf | ⟨behind, -, -, hf⟩ | ⟨-, hf⟩ | ⟨rfl, -⟩ := first_cases c rest
  · simp [hf] at hc
  · simp [hf] at hc
  · simp [hf] at hc
  · simp [hf] at hc
  · exact hn (by simp)

end Tiles

/-! ### The tokens of lexemes -/

theorem token?_span {number : Int} {l : Lexeme} {t : Token} (h : l.token? number = some t) :
    t.span = Span.onLine number l.column (l.column + l.text.length) ∧ t.text.toList = l.text := by
  obtain ⟨cls, column, text⟩ := l
  cases cls with
  | token kind =>
      obtain rfl := Option.some.inj h
      simp
  | name =>
      obtain rfl := Option.some.inj h
      simp
  | comment => cases h
  | blank => cases h
  | lineFeed => cases h

theorem cls_of_token?_eq_none {number : Int} {l : Lexeme} (h : l.token? number = none) :
    l.cls = .comment ∨ l.cls = .blank ∨ l.cls = .lineFeed := by
  obtain ⟨cls, column, text⟩ := l
  cases cls with
  | token kind => cases h
  | name => cases h
  | comment => exact Or.inl rfl
  | blank => exact Or.inr (Or.inl rfl)
  | lineFeed => exact Or.inr (Or.inr rfl)

end Lexeme

namespace Token

/-! ### The tokens of a line -/

section Line

variable {number : Int} {line : List Char} {t : Token}

/-- A token of a line stands there with its text. -/
theorem exists_place_ofLine (h : t ∈ ofLine number line) :
    ∃ start stop : Nat, t.span = Span.onLine number start stop ∧ start < stop ∧
      stop ≤ line.length ∧ Text.slice line start stop = t.text.toList := by
  obtain ⟨l, hl, ht⟩ := List.mem_filterMap.mp h
  obtain ⟨front, c, rest, hline, hfirst⟩ := (Lexeme.tiles_cut 0 line).exists_first hl
  obtain ⟨hspan, htext⟩ := Lexeme.token?_span ht
  have hle := Lexeme.first_count_le c rest
  have hcolumn : l.column = front.length := by simp [hfirst]
  have hslice : line = front ++ l.text ++ rest.drop (Lexeme.first c rest).2 := by
    rw [hline, hfirst, List.append_assoc, List.cons_append, List.take_append_drop]
  refine ⟨l.column, l.column + l.text.length, by simpa using hspan, ?_, ?_, ?_⟩
  · simp [hfirst]
  · rw [hslice, hcolumn]
    simp
  · rw [htext, hcolumn]
    conv => lhs; rw [hslice]
    exact Text.slice_append _ _ _

/-- The tokens of a line stand one behind the other. -/
theorem pairwise_ofLine (number : Int) (line : List Char) :
    (ofLine number line).Pairwise fun t t' => t.span.Before t'.span := by
  rw [ofLine, List.pairwise_filterMap]
  apply (Lexeme.tiles_cut 0 line).pairwise.imp
  intro l l' hle t ht t' ht'
  rw [(Lexeme.token?_span ht).1, (Lexeme.token?_span ht').1]
  apply Or.inr
  simp only [Span.onLine, true_and]
  omega

/-- Where a comment starts, all tokens of the line have ended. -/
theorem endColumn_le_comment (hn : '\n' ∉ line) {l : Lexeme} (hl : l ∈ Lexeme.ofLine line)
    (hc : l.cls = .comment) (ht : t ∈ ofLine number line) : t.span.endColumn ≤ l.column := by
  obtain ⟨l', hl', ht'⟩ := List.mem_filterMap.mp ht
  obtain ⟨hspan, -⟩ := Lexeme.token?_span ht'
  have htiles := Lexeme.tiles_cut 0 line
  have hstop := (htiles.comment hn hl hc).1
  obtain ⟨front, behind, hsplit⟩ := List.append_of_mem hl
  have hpairwise := htiles.pairwise
  change (Lexeme.ofLine line).Pairwise _ at hpairwise
  rw [hsplit, List.pairwise_append, List.pairwise_cons] at hpairwise
  obtain ⟨-, ⟨hafter, -⟩, hbefore⟩ := hpairwise
  rw [hsplit, List.mem_append, List.mem_cons] at hl'
  obtain hl' | rfl | hl' := hl'
  · have hle := hbefore l' hl' l List.mem_cons_self
    rw [hspan]
    simp only [Span.onLine]
    omega
  · simp [Lexeme.token?, hc] at ht'
  · -- A lexeme behind the comment would start behind the line.
    have hmem : l' ∈ Lexeme.cut 0 0 line := by
      change l' ∈ Lexeme.ofLine line
      rw [hsplit]
      simp [hl']
    obtain ⟨before, c, rest, hline, hfirst⟩ := htiles.exists_first hmem
    have hle := hafter l' hl'
    have hlength : line.length = before.length + (rest.length + 1) := by simp [hline]
    have hcolumn : l'.column = before.length := by simp [hfirst]
    omega

/-- What stands in no token of a line is white space, or it belongs to a comment, which starts with
two slashes behind all tokens of the line. -/
theorem blank_or_comment_ofLine {text : List Char} (hu : Text.isUnbroken text = true)
    {column : Nat} {c : Char} (hc : text[column]? = some c)
    (hout : ∀ t ∈ ofLine number text, ¬ t.span.Takes number column) :
    c = ' ' ∨ c = '\t' ∨
      ∃ start ≤ column, text[start]? = some '/' ∧ text[start + 1]? = some '/' ∧
        ∀ t ∈ ofLine number text, t.span.endColumn ≤ start := by
  have hn := Text.lineFeed_notMem hu
  have htiles := Lexeme.tiles_cut 0 text
  obtain ⟨hlt, -⟩ := List.getElem?_eq_some_iff.mp hc
  obtain ⟨l, hl, hstart, hstop⟩ := htiles.exists_mem hlt
  rw [Nat.zero_add] at hstart hstop
  cases ht : l.token? number with
  | some t =>
      -- The lexeme is a token, and so is the character.
      refine absurd ?_ (hout t (List.mem_filterMap.mpr ⟨l, hl, ht⟩))
      rw [(Lexeme.token?_span ht).1]
      simp only [Span.Takes, Span.onLine, true_and]
      omega
  | none =>
      obtain hcls | hcls | hcls := Lexeme.cls_of_token?_eq_none ht
      · obtain ⟨-, front, behind, hline, hcolumn⟩ := htiles.comment hn hl hcls
        rw [Nat.zero_add] at hcolumn
        refine Or.inr (Or.inr ⟨l.column, hstart, ?_, ?_, ?_⟩)
        · simp [hline, hcolumn]
        · simp [hline, hcolumn]
        · exact fun t ht => endColumn_le_comment hn hl hcls ht
      · obtain ⟨front, d, behind, hline, hcolumn, htext, hd⟩ := htiles.blank hu hl hcls
        have heq : column = front.length := by
          rw [htext, List.length_singleton] at hstop
          omega
        have hdc : d = c := by simpa [hline, heq] using hc
        rw [← hdc, ← or_assoc]
        exact Or.inl hd
      · exact absurd hcls (htiles.cls_ne_lineFeed hn hl)

end Line

/-! ### The tokens of a program -/

theorem mem_ofLines {number : Int} {lines : List (List Char)} {t : Token} :
    t ∈ ofLines number lines ↔
      ∃ (i : Nat) (line : List Char), lines[i]? = some line ∧ t ∈ ofLine (number + i) line := by
  induction lines generalizing number with
  | nil => simp [ofLines]
  | cons first rest ih =>
      have hnumber : ∀ i : Nat, number + 1 + i = number + (i + 1 : Nat) := by omega
      rw [ofLines, List.mem_append, ih]
      constructor
      · rintro (h | ⟨i, line, hi, ht⟩)
        · exact ⟨0, first, rfl, by simpa using h⟩
        · exact ⟨i + 1, line, hi, hnumber i ▸ ht⟩
      · rintro ⟨i, line, hi, ht⟩
        cases i with
        | zero =>
            obtain rfl := Option.some.inj hi
            exact Or.inl (by simpa using ht)
        | succ i => exact Or.inr ⟨i, line, hi, hnumber i ▸ ht⟩

/-- The tokens of lines stand one behind the other. -/
theorem pairwise_ofLines (number : Int) (lines : List (List Char)) :
    (ofLines number lines).Pairwise fun t t' => t.span.Before t'.span := by
  induction lines generalizing number with
  | nil => exact .nil
  | cons line rest ih =>
      rw [ofLines, List.pairwise_append]
      refine ⟨pairwise_ofLine number line, ih (number + 1), ?_⟩
      intro t ht t' ht'
      obtain ⟨start, stop, hspan, -⟩ := exists_place_ofLine ht
      obtain ⟨i, below, -, ht'⟩ := mem_ofLines.mp ht'
      obtain ⟨start', stop', hspan', -⟩ := exists_place_ofLine ht'
      rw [hspan, hspan']
      apply Or.inl
      simp only [Span.onLine]
      omega

variable {program : String} {t : Token}

/-- A token of a program stands on one of its lines with its text. -/
theorem exists_place (h : t ∈ ofProgram program) :
    ∃ (i : Nat) (line : List Char), (Text.lines program.toList)[i]? = some line ∧
      ∃ start stop : Nat, t.span = Span.onLine (i + 1) start stop ∧ start < stop ∧
        stop ≤ line.length ∧ Text.slice line start stop = t.text.toList := by
  obtain ⟨i, line, hi, ht⟩ := mem_ofLines.mp h
  rw [Int.add_comm] at ht
  exact ⟨i, line, hi, exists_place_ofLine ht⟩

/-- The end of the input is behind the last line. -/
theorem endPlace_of_getLast {last : List Char}
    (h : (Text.lines program.toList).getLast? = some last) :
    endPlace program =
      Span.onLine (Text.lines program.toList).length last.length last.length := by
  simp [endPlace, h]

/-- All tokens of a program stand before its end. -/
theorem before_endPlace (h : t ∈ ofProgram program) : t.span.Before (endPlace program) := by
  obtain ⟨i, line, hi, start, stop, hspan, -, hstop, -⟩ := exists_place h
  obtain ⟨hlt, -⟩ := List.getElem?_eq_some_iff.mp hi
  cases hlast : (Text.lines program.toList).getLast? with
  | none =>
      rw [List.getLast?_eq_none_iff] at hlast
      simp [hlast] at hlt
  | some last =>
      rw [hspan, endPlace_of_getLast hlast]
      by_cases hline : i + 1 = (Text.lines program.toList).length
      · have hsame : line = last := by
          rw [List.getLast?_eq_getElem?, ← hline, Nat.add_sub_cancel, hi] at hlast
          exact Option.some.inj hlast
        apply Or.inr
        simp only [Span.onLine, ← hsame, ← hline]
        omega
      · apply Or.inl
        simp only [Span.onLine]
        omega

/-- The tokens of a program tile it. Each of them stands on one line with its text, they follow one
another without overlapping, every other character is a space or a tab or belongs to a comment up to
the end of its line, and the end of the input comes last, behind the last line. -/
theorem scan_tiles (program : String) :
    ∃ (tokens : List Token) (place : Span), scan program = tokens ++ [⟨"", .endOfInput, place⟩] ∧
      (∀ t ∈ tokens, t.kind ≠ .endOfInput ∧
        ∃ (i : Nat) (text : List Char), (Text.lines program.toList)[i]? = some text ∧
          t.span.startLine = i + 1 ∧ t.span.endLine = i + 1 ∧
          t.span.startColumn < t.span.endColumn ∧
          0 ≤ t.span.startColumn ∧ t.span.endColumn ≤ text.length ∧
          Text.slice text t.span.startColumn t.span.endColumn = t.text.toList) ∧
      tokens.Pairwise (fun t t' => t.span.Before t'.span) ∧
      (∀ (i : Nat) (text : List Char), (Text.lines program.toList)[i]? = some text →
        ∀ (column : Nat) (c : Char), text[column]? = some c →
          (∀ t ∈ tokens, ¬ t.span.Takes (i + 1) column) →
          c = ' ' ∨ c = '\t' ∨
            ∃ start ≤ column, text[start]? = some '/' ∧ text[start + 1]? = some '/' ∧
              ∀ k : Nat, start ≤ k → ∀ t ∈ tokens, ¬ t.span.Takes (i + 1) k) ∧
      (Text.lines program.toList = [] → place = Span.onLine 1 0 0) ∧
      ∀ last, (Text.lines program.toList).getLast? = some last →
        place = Span.onLine (Text.lines program.toList).length last.length last.length := by
  refine ⟨ofProgram program, endPlace program, rfl, ?_, pairwise_ofLines 1 _, ?_, ?_, ?_⟩
  · intro t ht
    obtain ⟨i, text, hi, start, stop, hspan, hlt, hle, hslice⟩ := exists_place ht
    refine ⟨(scanned_ofProgram ht).ne_endOfInput, i, text, hi, ?_⟩
    rw [hspan]
    simp only [Span.onLine, true_and]
    exact ⟨by omega, by omega, by omega, hslice⟩
  · intro i text hi column c hc hout
    have hline : ∀ t ∈ ofProgram program, t.span.startLine = i + 1 → t ∈ ofLine (1 + i) text := by
      intro t ht hnumber
      obtain ⟨j, other, hj, ht⟩ := mem_ofLines.mp ht
      obtain ⟨start, stop, hspan, -⟩ := exists_place_ofLine ht
      have hij : j = i := by
        rw [hspan] at hnumber
        simp only [Span.onLine] at hnumber
        omega
      subst hij
      rw [hi] at hj
      exact Option.some.inj hj ▸ ht
    have hu := Text.isUnbroken_of_mem_lines (List.mem_of_getElem? hi)
    obtain hblank | hblank | ⟨start, hle, hfirst, hsecond, hend⟩ :=
      blank_or_comment_ofLine hu hc fun t (ht : t ∈ ofLine (1 + i) text) htakes =>
        hout t (mem_ofLines.mpr ⟨i, text, hi, ht⟩) (Int.add_comm 1 i ▸ htakes)
    · exact Or.inl hblank
    · exact Or.inr (Or.inl hblank)
    · refine Or.inr (Or.inr ⟨start, hle, hfirst, hsecond, ?_⟩)
      intro k hk t ht htakes
      have hstop := hend t (hline t ht htakes.1)
      have hlt := htakes.2.2
      omega
  · intro hnil
    simp [endPlace, hnil]
  · intro last hlast
    exact endPlace_of_getLast hlast

end Token

end ExprLang
