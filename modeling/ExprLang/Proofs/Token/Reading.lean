import ExprLang.Proofs.Token.Scanned

/-!
# Tokens of a text apart from places

The tokens of a text apart from their places are found lexeme by lexeme, whatever stands before. A
text `Scans` to tokens if these come first whenever the text is followed by something that does not
prolong its last lexeme. Texts that are put together scan to the tokens of their parts.

## Implementation notes

`reading` passes over characters as `Lexeme.cut` does, so that it is evaluated on a text of which
only the first characters are known.
-/

namespace ExprLang

namespace Lexeme

/-- The token of a lexeme without its place. -/
def bare : LexemeClass → List Char → Option Token
  | .token kind, text => some ⟨String.ofList text, kind, Span.nowhere⟩
  | .name, text => some ⟨String.ofList text, Kind.ofName (String.ofList text), Span.nowhere⟩
  | .comment, _ | .blank, _ | .lineFeed, _ => none

theorem unplaced_token (line : Int) (l : Lexeme) :
    (l.token? line).map Token.unplaced = bare l.cls l.text := by
  obtain ⟨cls, column, text⟩ := l
  cases cls <;> rfl

/-- The tokens of a text without places, when its first characters belong to a lexeme that started
before. -/
def reading (skip : Nat) : List Char → List Token
  | [] => []
  | c :: rest =>
      match skip with
      | skip + 1 => reading skip rest
      | 0 =>
          let found := first c rest
          (bare found.1 (c :: rest.take found.2)).toList ++ reading found.2 rest

theorem unplaced_cut (line : Int) (skip column : Nat) (text : List Char) :
    ((cut skip column text).filterMap (token? line)).map Token.unplaced = reading skip text := by
  induction text generalizing skip column with
  | nil => rfl
  | cons c rest ih =>
      cases skip with
      | succ skip => exact ih skip (column + 1)
      | zero =>
          have hc := unplaced_token line
            ⟨(first c rest).1, column, c :: rest.take (first c rest).2⟩
          have hr := ih (first c rest).2 (column + 1)
          simp only [cut, reading, List.filterMap_cons]
          cases ht : token? line ⟨(first c rest).1, column, c :: rest.take (first c rest).2⟩ with
          | none => simp [← hc, ht, hr]
          | some t => simp [← hc, ht, hr]

/-- The characters that belong to the lexeme before are passed over. -/
theorem reading_skip (skip : Nat) (text : List Char) :
    reading skip text = reading 0 (text.drop skip) := by
  induction text generalizing skip with
  | nil => cases skip <;> rfl
  | cons c rest ih =>
      cases skip with
      | zero => rfl
      | succ skip => exact ih skip

/-- The first lexeme of a text is read, and then what is behind it. -/
theorem reading_cons {c : Char} {rest : List Char} {cls : LexemeClass} {count : Nat}
    (h : first c rest = (cls, count)) :
    reading 0 (c :: rest) =
      (bare cls (c :: rest.take count)).toList ++ reading 0 (rest.drop count) := by
  rw [← reading_skip, reading, h]

/-! ### Names and numerals -/

theorem isNameChar_of_isNameStart {c : Char} (h : isNameStart c = true) : isNameChar c = true := by
  simp only [isNameStart, isNameChar, Char.isAlphanum, Bool.or_eq_true] at h ⊢
  rcases h with h | h
  · exact Or.inl (Or.inl h)
  · exact Or.inr h

theorem isNameChar_of_isDigit {c : Char} (h : c.isDigit = true) : isNameChar c = true := by
  simp [isNameChar, Char.isAlphanum, h]

theorem not_isNameStart_of_isDigit {c : Char} (h : c.isDigit = true) : isNameStart c = false := by
  have hd := Text.digit_bounds h
  rw [Bool.eq_false_iff]
  intro hn
  delta isNameStart Char.isAlpha Char.isUpper Char.isLower at hn
  simp only [Bool.or_eq_true, Bool.and_eq_true, decide_eq_true_eq, beq_iff_eq, ge_iff_le] at hn
  change ((65 ≤ c.toNat ∧ c.toNat ≤ 90) ∨ (97 ≤ c.toNat ∧ c.toNat ≤ 122)) ∨ c = '_' at hn
  rcases hn with (hn | hn) | rfl
  · omega
  · omega
  · exact absurd h (by decide)

/-- A letter, digit or underscore starts neither an operator nor a comment. -/
theorem first_of_isNameChar {c : Char} (h : isNameChar c = true) (rest : List Char) :
    symbol? c = none ∧ first c rest = single c rest := by
  have hs : symbol? c = none := by
    unfold symbol?
    split <;> first | rfl | exact absurd h (by decide)
  exact ⟨hs, first_of_symbol_eq_none hs rest⟩

/-- Whether a text does not prolong a name or a numeral before it. -/
def separates : List Char → Bool
  | [] => true
  | c :: _ => !isNameChar c

/-- A run of a class of characters ends where the class ends. -/
theorem reading_run {cls : LexemeClass} {p : Char → Bool} {c : Char} {run rest : List Char}
    (hf : first c (run ++ rest) = (cls, ((run ++ rest).takeWhile p).length))
    (hrun : ∀ d ∈ run, p d = true) (hrest : ∀ d ∈ rest.head?, p d = false) :
    reading 0 (c :: run ++ rest) = (bare cls (c :: run)).toList ++ reading 0 rest := by
  have hend : rest.takeWhile p = [] := by
    cases rest with
    | nil => rfl
    | cons d rest => exact List.takeWhile_cons_of_neg (by simp [hrest d rfl])
  have hw : (run ++ rest).takeWhile p = run := by
    rw [List.takeWhile_append_of_pos hrun, hend, List.append_nil]
  rw [hw] at hf
  rw [List.cons_append, reading_cons hf, List.take_left, List.drop_left]

theorem separates_head {rest : List Char} (h : separates rest = true) :
    ∀ d ∈ rest.head?, isNameChar d = false := by
  cases rest with
  | nil => simp
  | cons c rest => simpa [separates] using h

/-- A name is read as one token. -/
theorem reading_name {text : String} (h : Text.isName text = true) {rest : List Char}
    (hr : separates rest = true) :
    reading 0 (text.toList ++ rest) =
      ⟨text, Kind.ofName text, Span.nowhere⟩ :: reading 0 rest := by
  unfold Text.isName at h
  cases ht : text.toList with
  | nil => simp [ht] at h
  | cons c run =>
      simp only [ht, Bool.and_eq_true, List.all_eq_true] at h
      obtain ⟨hs, hf⟩ := first_of_isNameChar (isNameChar_of_isNameStart h.1) (run ++ rest)
      have hsingle : single c (run ++ rest) =
          (.name, ((run ++ rest).takeWhile isNameChar).length) := by
        simp [single, hs, h.1]
      rw [reading_run (hf.trans hsingle) h.2 (separates_head hr), ← ht]
      simp [bare]

/-- A numeral is read as one token. -/
theorem reading_numeral {text : String} (h : Text.isNumeral text = true) {rest : List Char}
    (hr : separates rest = true) :
    reading 0 (text.toList ++ rest) = ⟨text, .integer, Span.nowhere⟩ :: reading 0 rest := by
  simp only [Text.isNumeral, Bool.and_eq_true, List.all_eq_true] at h
  cases ht : text.toList with
  | nil => simp [ht] at h
  | cons c run =>
      simp only [ht, List.forall_mem_cons] at h
      obtain ⟨-, hc, hrun⟩ := h
      obtain ⟨hs, hf⟩ := first_of_isNameChar (isNameChar_of_isDigit hc) (run ++ rest)
      have hrest : ∀ d ∈ rest.head?, d.isDigit = false := by
        intro d hd
        rw [Bool.eq_false_iff]
        intro hdigit
        have hn := separates_head hr d hd
        rw [isNameChar_of_isDigit hdigit] at hn
        cases hn
      have hsingle : single c (run ++ rest) =
          (.token .integer, ((run ++ rest).takeWhile Char.isDigit).length) := by
        simp [single, hs, not_isNameStart_of_isDigit hc, hc]
      rw [reading_run (hf.trans hsingle) hrun hrest, ← ht]
      simp [bare]

end Lexeme

namespace Text

/-- Whether a text has no line break. -/
def isUnbroken (text : List Char) : Bool :=
  text.all fun c => !isLineBreak c

theorem lines_cons {c : Char} (h : isLineBreak c = false) (rest : List Char) :
    lines (c :: rest) = prependToLine c (lines rest) := by
  have hr : c ≠ '\r' := by
    rintro rfl
    exact absurd h (by decide)
  rw [lines]
  · simp [h]
  · rintro rest' rfl
    exact absurd rfl hr

/-- A text without a line break is one line, unless it is empty. -/
theorem lines_of_isUnbroken {text : List Char} (hne : text ≠ []) (h : isUnbroken text = true) :
    lines text = [text] := by
  induction text with
  | nil => exact absurd rfl hne
  | cons c rest ih =>
      obtain ⟨hc, hrest⟩ : isLineBreak c = false ∧ isUnbroken rest = true := by
        simpa [isUnbroken] using h
      rw [lines_cons hc]
      cases rest with
      | nil => rfl
      | cons d rest =>
          rw [ih (by simp) hrest]
          rfl

end Text

namespace Token

/-- The tokens of a program without a line break, apart from places. -/
theorem unplaced_ofProgram {program : String} (h : Text.isUnbroken program.toList = true) :
    (ofProgram program).map unplaced = Lexeme.reading 0 program.toList := by
  by_cases hne : program.toList = []
  · simp [ofProgram, hne, ofLines, Lexeme.reading]
  · simp only [ofProgram, Text.lines_of_isUnbroken hne h, ofLines, List.append_nil]
    exact Lexeme.unplaced_cut 1 0 0 program.toList

/-! ### Texts that are put together -/

/-- Any text may follow. -/
abbrev anyText : List Char → Bool := fun _ => true

/-- A text without line breaks that is read as certain tokens wherever what follows is suitable. -/
structure Scans (follow : List Char → Bool) (text : String) (ts : List Token) : Prop where
  unbroken : Text.isUnbroken text.toList = true
  reading : ∀ rest, follow rest = true →
    Lexeme.reading 0 (text.toList ++ rest) = ts ++ Lexeme.reading 0 rest

namespace Scans

variable {follow follow' : List Char → Bool} {a b : String} {ts us : List Token}

theorem append (ha : Scans follow a ts) (hb : Scans follow' b us)
    (h : ∀ rest, follow' rest = true → follow (b.toList ++ rest) = true) :
    Scans follow' (a ++ b) (ts ++ us) where
  unbroken := by
    rw [String.toList_append, Text.isUnbroken, List.all_append, Bool.and_eq_true]
    exact ⟨ha.unbroken, hb.unbroken⟩
  reading rest hr := by
    rw [String.toList_append, List.append_assoc, ha.reading _ (h rest hr), hb.reading rest hr,
      List.append_assoc]

/-- What follows may be restricted. -/
theorem imp (ha : Scans follow a ts) (h : ∀ rest, follow' rest = true → follow rest = true) :
    Scans follow' a ts :=
  ⟨ha.unbroken, fun rest hr => ha.reading rest (h rest hr)⟩

/-- A text between two others, of which the second starts with no letter or digit. -/
theorem between {opening closing : String} {os cs : List Token}
    (ho : Scans anyText opening os) (h : Scans Lexeme.separates a ts)
    (hc : Scans anyText closing cs)
    (hs : ∀ rest, Lexeme.separates (closing.toList ++ rest) = true) :
    Scans follow (opening ++ a ++ closing) (os ++ ts ++ cs) :=
  ((ho.append h fun _ _ => rfl).append hc fun rest _ => hs rest).imp fun _ _ => rfl

/-- A text whose tokens are the same at the end of the input and before any further character. -/
theorem of_cases (hu : Text.isUnbroken a.toList = true)
    (hn : Lexeme.reading 0 (a.toList ++ []) = ts ++ Lexeme.reading 0 [])
    (hc : ∀ c rest, Lexeme.reading 0 (a.toList ++ c :: rest) = ts ++ Lexeme.reading 0 (c :: rest)) :
    Scans follow a ts := by
  refine ⟨hu, fun rest _ => ?_⟩
  cases rest with
  | nil => exact hn
  | cons c rest => exact hc c rest

/-- The tokens of a line that scans. -/
theorem unplaced_ofLine (h : Scans follow a ts) (hf : follow [] = true) (number : Int) :
    (ofLine number a.toList).map unplaced = ts := by
  have hr := h.reading [] hf
  rw [List.append_nil] at hr
  rw [ofLine, Lexeme.ofLine, Lexeme.unplaced_cut, hr]
  exact List.append_nil ts

/-- The tokens of a program that scans. -/
theorem unplaced_ofProgram (h : Scans follow a ts) (hf : follow [] = true) :
    (ofProgram a).map unplaced = ts := by
  have hr := h.reading [] hf
  rw [List.append_nil] at hr
  rw [Token.unplaced_ofProgram h.unbroken, hr]
  exact List.append_nil ts

end Scans

/-- Letters, digits and underscores are no line breaks. -/
theorem isUnbroken_of_isNameChar {text : List Char}
    (h : ∀ c ∈ text, Lexeme.isNameChar c = true) : Text.isUnbroken text = true := by
  refine List.all_eq_true.mpr fun c hc => ?_
  have h := h c hc
  rw [Bool.not_eq_true', Bool.eq_false_iff]
  intro hb
  simp only [Text.isLineBreak, decide_eq_true_eq, List.mem_cons, List.not_mem_nil, or_false] at hb
  rcases hb with rfl | rfl | rfl | rfl | rfl | rfl | rfl | rfl | rfl | rfl <;>
    exact absurd h (by decide)

theorem scans_name {text : String} (h : Text.isName text = true) :
    Scans Lexeme.separates text [⟨text, Kind.ofName text, Span.nowhere⟩] where
  unbroken := by
    apply isUnbroken_of_isNameChar
    unfold Text.isName at h
    cases ht : text.toList with
    | nil => simp [ht] at h
    | cons d run =>
        simp only [ht, Bool.and_eq_true, List.all_eq_true] at h
        exact List.forall_mem_cons.mpr ⟨Lexeme.isNameChar_of_isNameStart h.1, h.2⟩
  reading _ hr := Lexeme.reading_name h hr

theorem scans_numeral {text : String} (h : Text.isNumeral text = true) :
    Scans Lexeme.separates text [⟨text, .integer, Span.nowhere⟩] where
  unbroken := by
    simp only [Text.isNumeral, Bool.and_eq_true, List.all_eq_true] at h
    exact isUnbroken_of_isNameChar fun c hc => Lexeme.isNameChar_of_isDigit (h.2 c hc)
  reading _ hr := Lexeme.reading_numeral h hr

end Token

end ExprLang
