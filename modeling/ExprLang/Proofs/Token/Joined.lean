import ExprLang.Proofs.Syntax.Scanning
import ExprLang.Proofs.Token.Longest
import ExprLang.Proofs.Token.Pulls

/-!
# Tokens from their texts

The texts of the tokens of a program with blanks between them are a program of one line with the same
tokens. A blank ends every lexeme, so none goes on into the next one or becomes a comment together with
it, and a text that is a lexeme of some line is the same lexeme by itself.
-/

namespace ExprLang

namespace Lexeme

/-- Whether a text is empty or starts with a space. -/
def spaced : List Char → Bool
  | [] => true
  | c :: _ => c == ' '

theorem separates_of_spaced {rest : List Char} (h : spaced rest = true) :
    separates rest = true := by
  cases rest with
  | nil => rfl
  | cons c rest =>
      obtain rfl : c = ' ' := by simpa [spaced] using h
      rfl

/-- A character that is illegal somewhere is illegal everywhere, and alone. -/
theorem first_of_illegal {c : Char} {rest : List Char} (h : (first c rest).1 = .token .illegal)
    (rest' : List Char) : first c rest' = (.token .illegal, 0) := by
  have hsymbol : symbol? c = none := by
    rw [Option.eq_none_iff_forall_ne_some]
    intro kind hk
    exact first_of_symbol hk h
  rw [first_of_symbol_eq_none hsymbol] at h ⊢
  simp only [single, hsymbol] at h ⊢
  split at h
  case isTrue => cases h
  case isFalse hname =>
    split at h
    case isTrue => cases h
    case isFalse hdigit =>
      split at h
      case isTrue => cases h
      case isFalse hspace =>
        split at h
        case isTrue => cases h
        case isFalse hfeed => rw [if_neg hname, if_neg hdigit, if_neg hspace, if_neg hfeed]

end Lexeme

namespace Token

open Lexeme (spaced)

/-- An illegal token is a character of its line that is illegal there. -/
theorem exists_illegal {number : Int} {line : List Char} {t : Token} (h : t ∈ ofLine number line)
    (hk : t.kind = .illegal) :
    ∃ c ∈ line, t.text = String.ofList [c] ∧
      ∀ rest, Lexeme.first c rest = (.token .illegal, 0) := by
  obtain ⟨l, hl, ht⟩ := List.mem_filterMap.mp h
  obtain ⟨front, c, rest, hline, hfirst⟩ := (Lexeme.tiles_cut 0 line).exists_first hl
  have hcls : l.cls = .token .illegal := by
    obtain ⟨cls, column, text⟩ := l
    cases cls with
    | token kind =>
        obtain rfl := Option.some.inj ht
        exact congrArg LexemeClass.token hk
    | name =>
        obtain rfl := Option.some.inj ht
        obtain ⟨hkeyword, -⟩ | ⟨hid, -⟩ := Kind.ofName_spec (String.ofList text)
        · rw [show Kind.ofName _ = .illegal from hk] at hkeyword
          exact absurd hkeyword (by decide)
        · rw [show Kind.ofName _ = .illegal from hk] at hid
          cases hid
    | comment => cases ht
    | blank => cases ht
    | lineFeed => cases ht
  have hillegal : (Lexeme.first c rest).1 = .token .illegal := by rw [← hcls, hfirst]
  have hall := Lexeme.first_of_illegal hillegal
  refine ⟨c, by simp [hline], ?_, hall⟩
  have htext := (Lexeme.token?_span ht).2
  rw [hfirst, hall rest] at htext
  rw [← String.ofList_toList (s := t.text), htext]
  rfl

/-! ### Tokens before a blank -/

/-- The text of a keyword or mark is one token before a blank. -/
theorem scans_fixed {k : Kind} (h : k.hasFixedText = true) : Scans spaced k.text [k.token] := by
  constructor
  · revert h
    cases k <;> decide
  · intro rest hr
    cases rest with
    | nil => cases k <;> simp only [Kind.hasFixedText, Bool.false_eq_true] at h <;> rfl
    | cons c rest =>
        obtain rfl : c = ' ' := by simpa [spaced] using hr
        cases k <;> simp only [Kind.hasFixedText, Bool.false_eq_true] at h <;> rfl

theorem scans_illegal {c : Char} (hc : Text.isLineBreak c = false)
    (h : ∀ rest, Lexeme.first c rest = (.token .illegal, 0)) :
    Scans spaced (String.ofList [c]) [⟨String.ofList [c], .illegal, Span.nowhere⟩] := by
  constructor
  · simpa [Text.isUnbroken] using hc
  · intro rest _
    rw [String.toList_ofList, List.singleton_append, Lexeme.reading_cons (h rest)]
    rfl

/-- The text of every token of a program is that token again before a blank. -/
theorem scans_self {program : String} {t : Token} (h : t ∈ ofProgram program) :
    Scans spaced t.text [t.unplaced] := by
  have hscanned := scanned_ofProgram h
  have hfixed : t.kind.hasFixedText = true → Scans spaced t.text [t.unplaced] := by
    intro hk
    rw [unplaced_eq_token (hscanned.text_eq hk), hscanned.text_eq hk]
    exact scans_fixed hk
  obtain ⟨text, kind, span⟩ := t
  cases kind
  case identifier =>
    have hs := Node.scans_identifier (show Text.isIdentifier text = true from hscanned)
    exact hs.imp fun _ => Lexeme.separates_of_spaced
  case integer =>
    have hs := scans_numeral (show Text.isNumeral text = true from hscanned)
    exact hs.imp fun _ => Lexeme.separates_of_spaced
  case illegal =>
    obtain ⟨i, line, hline, ht⟩ := mem_ofLines.mp h
    obtain ⟨c, hc, rfl, hillegal⟩ := exists_illegal ht rfl
    have hunbroken := Text.isUnbroken_of_mem_lines (List.mem_of_getElem? hline)
    have hbreak : Text.isLineBreak c = false := by
      simpa using List.all_eq_true.mp hunbroken c hc
    exact scans_illegal hbreak hillegal
  case endOfInput => exact absurd rfl hscanned.ne_endOfInput
  all_goals exact hfixed rfl

/-- Texts with blanks between them scan to the tokens that they scan to by themselves. -/
theorem scans_joined {ts : List Token} (h : ∀ t ∈ ts, Scans spaced t.text [t.unplaced]) :
    Scans spaced (" ".intercalate (ts.map text)) (ts.map unplaced) := by
  induction ts with
  | nil => exact ⟨rfl, fun _ _ => rfl⟩
  | cons t rest ih =>
      have ht := h t List.mem_cons_self
      have hrest := ih fun u hu => h u (List.mem_cons_of_mem t hu)
      cases rest with
      | nil => exact ht
      | cons u rest =>
          rw [List.map_cons, List.map_cons, String.intercalate_cons_cons]
          exact (ht.append Node.scans_space fun _ _ => rfl).append hrest fun _ _ => rfl

/-! ### Programs of one line -/

theorem unplaced_endOf (program : String) : (endOf program).unplaced = ending Span.nowhere := rfl

/-- All tokens of a text without line breaks are on the first line, and so is its end. -/
theorem line_of_isUnbroken {program : String} (h : Text.isUnbroken program.toList = true)
    {t : Token} (ht : t ∈ scan program) : t.span.startLine = 1 ∧ t.span.endLine = 1 := by
  have hlines : Text.lines program.toList = [] ∨ Text.lines program.toList = [program.toList] := by
    by_cases hne : program.toList = []
    · rw [hne]
      exact Or.inl rfl
    · exact Or.inr (Text.lines_of_isUnbroken hne h)
  rcases List.mem_append.mp ht with ht | ht
  · obtain ⟨i, line, hi, start, stop, hspan, -⟩ := exists_place ht
    obtain rfl : i = 0 := by
      obtain ⟨hlt, -⟩ := List.getElem?_eq_some_iff.mp hi
      rcases hlines with hl | hl
      · simp [hl] at hlt
      · simpa [hl] using hlt
    rw [hspan]
    exact ⟨rfl, rfl⟩
  · obtain rfl := List.mem_singleton.mp ht
    rcases hlines with hl | hl
    · simp [endOf, ending, endPlace, hl, Span.onLine]
    · simp [endOf, ending, endPlace, hl, Span.onLine]

/-- The tokens of a program are told by their texts: the texts with single spaces between them are a
program that has the same tokens, the end of the input being the last, and all of them are on its first
line. -/
theorem scan_joined (program : String) :
    (scan (" ".intercalate ((Scanner.proper (scan program)).map text))).map unplaced =
        (scan program).map unplaced ∧
      ∀ t ∈ scan (" ".intercalate ((Scanner.proper (scan program)).map text)),
        t.span.startLine = 1 ∧ t.span.endLine = 1 := by
  rw [Scanner.proper_scan]
  have hscans := scans_joined fun t (ht : t ∈ ofProgram program) => scans_self ht
  constructor
  · rw [scan, scan, List.map_append, List.map_append, hscans.unplaced_ofProgram rfl,
      List.map_singleton, List.map_singleton, unplaced_endOf, unplaced_endOf]
  · intro t
    exact line_of_isUnbroken hscans.unbroken

example : scan (" ".intercalate ((Scanner.proper (scan "/\n/ é=\t=ifx")).map text)) =
    [⟨"/", .slash, .onLine 1 0 1⟩, ⟨"/", .slash, .onLine 1 2 3⟩, ⟨"é", .illegal, .onLine 1 4 5⟩,
      ⟨"=", .assign, .onLine 1 6 7⟩, ⟨"=", .assign, .onLine 1 8 9⟩,
      ⟨"ifx", .identifier, .onLine 1 10 13⟩, ⟨"", .endOfInput, .onLine 1 13 13⟩] := by
  decide +kernel

end Token

end ExprLang
