import ExprLang.Proofs.Diagnostic.Excerpt
import ExprLang.Proofs.Parsing.Places
import ExprLang.Proofs.Parsing.Steps
import ExprLang.Proofs.Token.Scanned

/-!
# Diagnostics show what they are about

A diagnostic of a parse shows the lines around the token at which the parse could not go on, and in
colour precisely the text of that token is coloured. At the end of the input this is the empty text
behind the last line.
-/

namespace ExprLang

/-- The token that a complaint is about. -/
def Complaint.token? : Complaint → Option Token
  | .unexpectedToken _ got => some got
  | .noOperand token => some token
  | .integerTooLarge token => some token
  | .nestedTooDeep => none

/-- A diagnostic about a token at hand has the place of that token. -/
theorem ParseState.Blames.exists_token {ts : List Token} {s : ParseState} {d : Diagnostic}
    (h : s.Blames d) (hs : s.Ordered ts) :
    ∃ t ∈ ts, d.complaint.token? = some t ∧ d.span = t.span := by
  cases h with
  | unexpected => exact ⟨_, (hs.of_follows (Parse.Follows.next s)).token_mem, rfl, rfl⟩
  | noOperand => exact ⟨_, hs.token_mem, rfl, rfl⟩
  | tooLarge => exact ⟨_, hs.token_mem, rfl, rfl⟩

/-- A token is a part of a line, from one column up to another. -/
structure Token.StandsIn (t : Token) (lines : List (List Char)) (number start stop : Nat)
    (line : List Char) : Prop where
  span_eq : t.span = Span.onLine number start stop
  number_pos : 1 ≤ number
  line_eq : lines[number - 1]? = some line
  start_le : start ≤ stop
  stop_le : stop ≤ line.length
  text_eq : (line.take stop).drop start = t.text.toList

/-- A line is made up of what stands before a token in it, of the token, and of what stands behind. -/
theorem Token.StandsIn.line_append {t : Token} {lines : List (List Char)} {number start stop : Nat}
    {line : List Char} (h : t.StandsIn lines number start stop line) :
    line = line.take start ++ t.text.toList ++ line.drop stop := by
  calc
    line = line.take stop ++ line.drop stop := (List.take_append_drop stop line).symm
    _ = (line.take stop).take start ++ (line.take stop).drop start ++ line.drop stop := by
      rw [List.take_append_drop start (line.take stop)]
    _ = line.take start ++ t.text.toList ++ line.drop stop := by
      rw [List.take_take, Nat.min_eq_left h.start_le, h.text_eq]

theorem Token.StandsIn.ofList_append {t : Token} {lines : List (List Char)}
    {number start stop : Nat} {line : List Char} (h : t.StandsIn lines number start stop line) :
    String.ofList (line.take start) ++ t.text ++ String.ofList (line.drop stop) =
      String.ofList line := by
  calc
    _ = String.ofList (line.take start) ++ String.ofList t.text.toList ++
        String.ofList (line.drop stop) := by rw [String.ofList_toList]
    _ = String.ofList (line.take start ++ t.text.toList ++ line.drop stop) := by
      rw [String.ofList_append, String.ofList_append]
    _ = String.ofList line := by rw [← h.line_append]

/-- Every token of a program that has lines stands in one of them. -/
theorem Token.exists_standsIn {program : String} {t : Token} (ht : t ∈ scan program)
    (hne : Text.lines program.toList ≠ []) :
    ∃ number start stop line, t.StandsIn (Text.lines program.toList) number start stop line := by
  rw [scan, List.mem_append, List.mem_singleton] at ht
  obtain ht | rfl := ht
  · obtain ⟨i, line, hi, start, stop, hspan, hlt, hle, htext⟩ := exists_place ht
    refine ⟨i + 1, start, stop, line, hspan, Nat.le_add_left 1 i, hi, Nat.le_of_lt hlt, hle, ?_⟩
    rw [← htext, Text.slice, Text.before, Text.bound_natCast hle,
      Text.bound_natCast ((Nat.le_of_lt hlt).trans hle)]
  · have hlast := List.getLast?_eq_some_getLast hne
    refine ⟨_, _, _, _, endPlace_of_getLast hlast, List.length_pos_iff.mpr hne, ?_, Nat.le_refl _,
      Nat.le_refl _, ?_⟩
    · rw [← List.getLast?_eq_getElem?]
      exact hlast
    · rw [List.take_length, List.drop_length]
      rfl

/-- The end of the input has no text. -/
theorem Token.text_of_endOfInput {program : String} {t : Token} (ht : t ∈ scan program)
    (hk : t.kind = .endOfInput) : t.text = "" := by
  rw [scan, List.mem_append, List.mem_singleton] at ht
  obtain ht | rfl := ht
  · exact absurd hk (scanned_ofProgram ht).ne_endOfInput
  · rfl

/-- A program without a line has no diagnostics. -/
theorem diagnostics_of_lines_eq_nil {depth : Nat} {program : String} {parsed : Parsed}
    (h : parseWithin depth program = .ok parsed) (hl : Text.lines program.toList = []) :
    parsed.diagnostics = [] := by
  have hpending : (TokenStream.ofProgram program).pending = [] := by
    simp [TokenStream.ofProgram, Token.ofProgram, hl, Token.ofLines]
  have hrun : Ends (Parse.programStatements (Parse.statement depth)
      (TokenStream.ofProgram program).pending.length) { stream := TokenStream.ofProgram program }
      (fun _ s => s.diagnostics = []) Parse.anyFault := by
    rw [hpending]
    rfl
  obtain ⟨-, -, s, -, hd, hs⟩ := TokenStream.parseWithin_ends hrun h
  rw [hd, hs]

/-- The text of a diagnostic around an excerpt. -/
def Diagnostic.framed (d : Diagnostic) (excerpt : List String) : String :=
  "SyntaxError: " ++ d.message ++ "\n" ++ "\n".intercalate excerpt ++
    if d.advice.isEmpty then "" else "\n" ++ d.advice

theorem Diagnostic.framed_eq (d : Diagnostic) (excerpt : List String) :
    d.framed excerpt = "SyntaxError: " ++ d.message ++ "\n" ++ "\n".intercalate excerpt ++
      if d.advice.isEmpty then "" else "\n" ++ d.advice := rfl

theorem Diagnostic.detailed_eq {d : Diagnostic} {program : String} {t : Token}
    {number start stop : Nat} {line : List Char} (hd : d.span = t.span)
    (ht : t.StandsIn (Text.lines program.toList) number start stop line) (colour : Bool) :
    d.detailed program colour = d.framed (Excerpt.rows (Text.lines program.toList) number
      (String.ofList (line.take start) ++ (Mark.redIf colour).around t.text ++
        String.ofList (line.drop stop))) := by
  have hmarked : Excerpt.markedText (Mark.redIf colour) start stop line =
      String.ofList (line.take start) ++ (Mark.redIf colour).around t.text ++
        String.ofList (line.drop stop) := by
    rw [Excerpt.markedText, ht.text_eq, String.ofList_toList]
  have hheading : "SyntaxError" ++ ": " = "SyntaxError: " := by decide
  rw [detailed, hd, ht.span_eq, framed_eq, ← hmarked, ← hheading]
  exact Excerpt.render_eq rfl rfl ht.number_pos ht.line_eq ht.start_le ht.stop_le

/-- A diagnostic without colour and one with colour: the codes of the colour stand around the text of
the token. -/
theorem Diagnostic.exists_detailed {d : Diagnostic} {program : String} {t : Token}
    {number start stop : Nat} {line : List Char} (hd : d.span = t.span)
    (ht : t.StandsIn (Text.lines program.toList) number start stop line) :
    ∃ before after, ∀ colour,
      d.detailed program colour = before ++ (Mark.redIf colour).around t.text ++ after := by
  have hmem : number ∈ Excerpt.numbers (Text.lines program.toList).length number := by
    obtain ⟨hlt, -⟩ := List.getElem?_eq_some_iff.mp ht.line_eq
    apply Excerpt.marked_mem_numbers ht.number_pos
    omega
  obtain ⟨before, after, hrows⟩ := Excerpt.exists_intercalate_rows hmem
  refine ⟨"SyntaxError: " ++ d.message ++ "\n" ++ before ++ String.ofList (line.take start),
    String.ofList (line.drop stop) ++ after ++ (if d.advice.isEmpty then "" else "\n" ++ d.advice),
    ?_⟩
  intro colour
  rw [detailed_eq hd ht colour, framed_eq, hrows]
  simp only [String.append_assoc]

/-- A diagnostic of a parse that is not about the nesting limit is about the next token, where another
kind is required, or about the current one. It shows the line of that token, the one before it and
the one behind it, with their numbers in one column and an arrow before the line of the token. With
colours the text of the token stands between two codes, and nothing else is different. -/
theorem detailed_shows_token {depth : Nat} {program : String} {parsed : Parsed}
    (h : parseWithin depth program = .ok parsed) {front rest : List Diagnostic} {d : Diagnostic}
    (hd : parsed.diagnostics = front ++ d :: rest) (hc : d.complaint ≠ .nestedTooDeep) :
    ∃ s t number start stop line,
      Parse.Proceeds { stream := TokenStream.ofProgram program } s ∧ s.diagnostics = front ∧
      s.Blames d ∧ d.complaint.token? = some t ∧
      t.StandsIn (Text.lines program.toList) number start stop line ∧
      (t.kind = .endOfInput → t.text = "") ∧
      d.detailed program false =
        d.framed (Excerpt.rows (Text.lines program.toList) number (String.ofList line)) ∧
      d.detailed program true =
        d.framed (Excerpt.rows (Text.lines program.toList) number
          (String.ofList (line.take start) ++ ("\x1b[31m" ++ t.text ++ "\x1b[m") ++
            String.ofList (line.drop stop))) ∧
      (∀ k ∈ Excerpt.numbers (Text.lines program.toList).length number,
        (Excerpt.label (Excerpt.width (Text.lines program.toList).length number) k).length =
          Excerpt.width (Text.lines program.toList).length number) ∧
      ∃ before after, d.detailed program false = before ++ t.text ++ after ∧
        d.detailed program true = before ++ ("\x1b[31m" ++ t.text ++ "\x1b[m") ++ after := by
  have hne : Text.lines program.toList ≠ [] := by
    intro hl
    rw [diagnostics_of_lines_eq_nil h hl] at hd
    simp at hd
  obtain ⟨s, hs, hfront, hblames⟩ := TokenStream.exists_blames h hd hc
  obtain ⟨t, hmem, htoken, hspan⟩ :=
    hblames.exists_token ((Token.ordered_ofProgram program).of_follows hs.follows)
  obtain ⟨number, start, stop, line, ht⟩ := Token.exists_standsIn hmem hne
  obtain ⟨before, after, hboth⟩ := Diagnostic.exists_detailed hspan ht
  have hplain : (Mark.redIf false).around t.text = t.text := by
    simp [Mark.redIf, Mark.plain, Mark.around]
  refine ⟨s, t, number, start, stop, line, hs, hfront, hblames, htoken, ht,
    Token.text_of_endOfInput hmem, ?_, Diagnostic.detailed_eq hspan ht true,
    fun k hk => Excerpt.length_label hk, before, after, ?_, hboth true⟩
  · rw [Diagnostic.detailed_eq hspan ht false, hplain, ht.ofList_append]
  · rw [hboth false, hplain]

/-- A token that is not a name, on the line before the one where numbers get wider. -/
theorem detailed_shows_token_on_ninth_line :
    ∃ parsed d t number start stop line,
      parseWithin nestingLimit "\n\n\n\n\n\n\n\nlet 5;\n6" = .ok parsed ∧
      parsed.diagnostics = [] ++ d :: [] ∧ d.complaint ≠ .nestedTooDeep ∧
      d.complaint.token? = some t ∧
      t.StandsIn (Text.lines "\n\n\n\n\n\n\n\nlet 5;\n6".toList) number start stop line ∧
      d.detailed "\n\n\n\n\n\n\n\nlet 5;\n6" true =
        d.framed (Excerpt.rows (Text.lines "\n\n\n\n\n\n\n\nlet 5;\n6".toList) number
          (String.ofList (line.take start) ++ ("\x1b[31m" ++ t.text ++ "\x1b[m") ++
            String.ofList (line.drop stop))) := by
  obtain ⟨parsed, d, hp, hd, hc⟩ : ∃ parsed d,
      parseWithin nestingLimit "\n\n\n\n\n\n\n\nlet 5;\n6" = .ok parsed ∧
        parsed.diagnostics = [] ++ d :: [] ∧ d.complaint ≠ .nestedTooDeep :=
    ⟨_, _, rfl, rfl, Complaint.noConfusion⟩
  obtain ⟨-, t, number, start, stop, line, -, -, -, htoken, ht, -, -, htrue, -⟩ :=
    detailed_shows_token hp hd hc
  exact ⟨parsed, d, t, number, start, stop, line, hp, hd, hc, htoken, ht, htrue⟩

example :
    Diagnostic.detailed ⟨.unexpectedToken .identifier ⟨"5", .integer, ⟨9, 9, 4, 5⟩⟩, ⟨9, 9, 4, 5⟩⟩
      "\n\n\n\n\n\n\n\nlet 5;\n6" true =
    "SyntaxError: expected next token to be identifier, got integer instead\n    8. \n" ++
      "->  9. let \x1b[31m5\x1b[m;\n   10. 6\nExpected an identifier, but got '5' instead on " ++
      "line [9] column 4." := by
  decide +kernel

end ExprLang
