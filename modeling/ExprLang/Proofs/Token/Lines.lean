import ExprLang.Proofs.Syntax.Moving
import ExprLang.Proofs.Token.Pulls
import ExprLang.Proofs.Token.Reading

/-!
# Tokens further down

Where a text and a line feed are put in front of a program, the tokens of the program go down by the
lines of that text and are the same otherwise, and the tokens of the text stay as they are. Where the
text is one line, the end of the input goes down with the tokens.

## Implementation notes

Behind a line feed a program is cut into lines as if it stood alone. What the line feed does to the
text before it depends on the last character of that text: it ends a line, it is the second half of a
break, or it is a line of its own, which has no tokens.
-/

namespace ExprLang

namespace Text

/-- A line feed ends the line in front of a text. -/
theorem lines_append_lineFeed {line : List Char} (h : isUnbroken line = true) (text : List Char) :
    lines (line ++ '\n' :: text) = line :: lines text := by
  induction line with
  | nil => rfl
  | cons c rest ih =>
      obtain ⟨hc, hrest⟩ : isLineBreak c = false ∧ isUnbroken rest = true := by
        simpa [isUnbroken] using h
      rw [List.cons_append, lines_cons hc, ih hrest]
      rfl

/-- A break ends the line before it, unless it is the first half of a longer one. -/
theorem lines_cons_break {c : Char} {rest : List Char} (hc : isLineBreak c = true)
    (h : c = '\r' → rest.head? ≠ some '\n') : lines (c :: rest) = [] :: lines rest := by
  rw [lines, if_pos hc]
  rintro rest' rfl rfl
  exact h rfl rfl

/-- A line feed behind a text leaves its lines as they are. It adds an empty one at most, whatever comes
behind it, and that is cut into lines by itself. -/
theorem exists_lines_append (text : List Char) :
    ∃ added : List (List Char), (added = [] ∨ added = [[]]) ∧
      ∀ rest, lines (text ++ '\n' :: rest) = lines text ++ (added ++ lines rest) := by
  fun_induction lines text with
  | case1 => exact ⟨[[]], Or.inr rfl, fun _ => rfl⟩
  | case2 text ih =>
      obtain ⟨added, hadded, hlines⟩ := ih
      refine ⟨added, hadded, fun rest => ?_⟩
      rw [List.cons_append, List.cons_append, lines, hlines]
      rfl
  | case3 c text hpair hc ih =>
      -- Only a carriage return at the end of the text is one break together with the line feed.
      by_cases hend : c = '\r' ∧ text = []
      · obtain ⟨rfl, rfl⟩ := hend
        exact ⟨[], Or.inl rfl, fun _ => rfl⟩
      · obtain ⟨added, hadded, hlines⟩ := ih
        refine ⟨added, hadded, fun rest => ?_⟩
        have hhead : c = '\r' → (text ++ '\n' :: rest).head? ≠ some '\n' := by
          rintro rfl
          cases text with
          | nil => exact absurd ⟨rfl, rfl⟩ hend
          | cons d text =>
              intro hd
              obtain rfl := Option.some.inj hd
              exact hpair text rfl rfl
        rw [List.cons_append, lines_cons_break hc hhead, hlines]
        rfl
  | case4 c text hpair hc ih =>
      have hc : isLineBreak c = false := Bool.eq_false_iff.mpr hc
      cases text with
      | nil =>
          refine ⟨[], Or.inl rfl, fun rest => ?_⟩
          rw [List.cons_append, lines_cons hc]
          rfl
      | cons d text =>
          obtain ⟨added, hadded, hlines⟩ := ih
          refine ⟨added, hadded, fun rest => ?_⟩
          rw [List.cons_append, lines_cons hc, hlines]
          cases hl : lines (d :: text) with
          | nil => exact absurd hl (lines_ne_nil (by simp))
          | cons line more => rfl

end Text

namespace Token

variable (number count : Int)

theorem token?_add (l : Lexeme) :
    l.token? (number + count) = (l.token? number).map (Moving.down count).token := by
  unfold Lexeme.token?
  cases l.cls <;> rfl

theorem ofLine_add (line : List Char) :
    ofLine (number + count) line = (ofLine number line).map (Moving.down count).token := by
  unfold ofLine
  rw [List.map_filterMap]
  congr 1
  funext l
  exact token?_add number count l

theorem ofLines_add (lines : List (List Char)) :
    ofLines (number + count) lines = (ofLines number lines).map (Moving.down count).token := by
  induction lines generalizing number with
  | nil => rfl
  | cons line rest ih =>
      have hn : number + count + 1 = number + 1 + count := by omega
      rw [ofLines, ofLines, List.map_append, ofLine_add, hn, ih]

/-- The tokens of lines one after the other. -/
theorem ofLines_append (lines more : List (List Char)) :
    ofLines number (lines ++ more) =
      ofLines number lines ++ ofLines (number + lines.length) more := by
  induction lines generalizing number with
  | nil =>
      rw [List.length_nil, Int.natCast_zero, Int.add_zero]
      rfl
  | cons line rest ih =>
      have hn : number + 1 + (rest.length : Int) = number + ((line :: rest).length : Int) := by
        rw [List.length_cons]
        omega
      rw [List.cons_append, ofLines, ofLines, ih, hn, List.append_assoc]

end Token

namespace Scanner

/-- Scanning goes line by line: where a text is followed by a line feed and a program, its tokens stay
as they are, and behind them come the tokens of the program, further down by the lines that the text and
the line feed make up, whatever breaks or comments the text ends with. -/
theorem scan_composes (text program : String) :
    proper (ofProgram (text ++ "\n" ++ program)).scan.1 =
      proper (ofProgram text).scan.1 ++ (proper (ofProgram program).scan.1).map
        (Moving.down (Text.lines (text ++ "\n").toList).length).token := by
  obtain ⟨added, hadded, hlines⟩ := Text.exists_lines_append text.toList
  have hwhole : Text.lines (text ++ "\n" ++ program).toList =
      Text.lines text.toList ++ added ++ Text.lines program.toList := by
    simpa using hlines program.toList
  have hfront : Text.lines (text ++ "\n").toList = Text.lines text.toList ++ added := by
    simpa using hlines []
  have hempty : ∀ number, Token.ofLines number added = [] := by
    intro number
    rcases hadded with rfl | rfl <;> rfl
  rw [scan_ofProgram, scan_ofProgram, scan_ofProgram, proper_scan, proper_scan, proper_scan,
    Token.ofProgram, hwhole, Token.ofLines_append, Token.ofLines_append, hempty, List.append_nil,
    Token.ofLines_add, hfront]
  rfl

/-- A comment ends with its line, a carriage return and a line feed end one line, and a line feed behind
another break ends one more. -/
example : proper (ofProgram ("a // b\r" ++ "\n" ++ "c\x0b" ++ "\n" ++ "d")).scan.1 =
    [⟨"a", .identifier, .onLine 1 0 1⟩, ⟨"c", .identifier, .onLine 2 0 1⟩,
      ⟨"d", .identifier, .onLine 4 0 1⟩] := by
  decide +kernel

end Scanner

variable {line : String} (h : Text.isUnbroken line.toList = true)

include h

/-- The tokens of a program below a line. -/
theorem Token.ofProgram_append_lineFeed (program : String) :
    Token.ofProgram (line ++ "\n" ++ program) =
      Token.ofLine 1 line.toList ++ (Token.ofProgram program).map (Moving.down 1).token := by
  have hl : (line ++ "\n" ++ program).toList = line.toList ++ '\n' :: program.toList := by
    simp
  rw [Token.ofProgram, hl, Text.lines_append_lineFeed h, Token.ofLines, Token.ofLines_add]
  rfl

/-- The end of a program below a line, unless there is nothing below it. -/
theorem Token.endPlace_append_lineFeed {program : String} (hne : program.toList ≠ []) :
    Token.endPlace (line ++ "\n" ++ program) = (Moving.down 1).span (Token.endPlace program) := by
  have hl : (line ++ "\n" ++ program).toList = line.toList ++ '\n' :: program.toList := by
    simp
  simp only [Token.endPlace, hl, Text.lines_append_lineFeed h]
  cases hp : Text.lines program.toList with
  | nil => exact absurd hp (Text.lines_ne_nil hne)
  | cons first rest =>
      rw [List.getLast?_cons_cons]
      cases hlast : (first :: rest).getLast? with
      | none => simp at hlast
      | some last =>
          simp only
          rw [List.length_cons, Int.natCast_succ]
          rfl

end ExprLang
