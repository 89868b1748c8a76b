import ExprLang.Proofs.Syntax.WellFormed
import ExprLang.Proofs.Text.Numeral
import ExprLang.Proofs.Token.Branches
import ExprLang.Token.Scan

/-!
# Tokens of programs

In a token of a program text and kind belong together: a kind that has a fixed text stands with that
text, identifiers are names that are no keywords, and integers are runs of digits. The end of the
input is not among the tokens.
-/

namespace ExprLang

/-- A token as programs have them. -/
def Token.Scanned (t : Token) : Prop :=
  match t.kind with
  | .identifier => Text.isIdentifier t.text = true
  | .integer => Text.isNumeral t.text = true
  | .illegal => True
  | .endOfInput => False
  | kind => t.text = kind.text

theorem Token.Scanned.text_eq {t : Token} (h : t.Scanned) (hk : t.kind.hasFixedText = true) :
    t.text = t.kind.text := by
  unfold Token.Scanned at h
  cases ht : t.kind <;> simp_all [Kind.hasFixedText]

theorem Token.Scanned.ne_endOfInput {t : Token} (h : t.Scanned) : t.kind ≠ .endOfInput := by
  intro hk
  simp [Token.Scanned, hk] at h

theorem Token.Scanned.isNumeral {t : Token} (h : t.Scanned) (hk : t.kind = .integer) :
    Text.isNumeral t.text = true := by
  simpa [Token.Scanned, hk] using h

theorem Token.Scanned.of_text_eq {t : Token} (hk : t.kind.hasFixedText = true)
    (ht : t.text = t.kind.text) : t.Scanned := by
  unfold Token.Scanned
  cases hk' : t.kind <;> simp_all [Kind.hasFixedText]

/-! ### Names -/

/-- The kind of a name is that of a keyword with its text, or it is an identifier and no keyword. -/
theorem Kind.ofName_spec (name : String) :
    (Kind.ofName name ∈ Kind.keywords ∧ (Kind.ofName name).text = name) ∨
      (Kind.ofName name = .identifier ∧ name ∉ Kind.keywords.map Kind.text) := by
  unfold Kind.ofName
  cases hf : Kind.keywords.find? fun k => k.text == name with
  | some k =>
      refine Or.inl ⟨List.mem_of_find?_eq_some hf, ?_⟩
      simpa using List.find?_some hf
  | none =>
      refine Or.inr ⟨rfl, ?_⟩
      rintro hm
      obtain ⟨k, hk, rfl⟩ := List.mem_map.mp hm
      exact List.find?_eq_none.mp hf k hk (by simp)

theorem Kind.hasFixedText_of_mem_keywords {k : Kind} (h : k ∈ Kind.keywords) :
    k.hasFixedText = true := by
  revert k
  decide

theorem Token.scanned_of_isName {text : String} {span : Span} (h : Text.isName text = true) :
    (⟨text, Kind.ofName text, span⟩ : Token).Scanned := by
  rcases Kind.ofName_spec text with ⟨hk, ht⟩ | ⟨hk, hn⟩
  · exact Token.Scanned.of_text_eq (Kind.hasFixedText_of_mem_keywords hk) ht.symm
  · simp [Token.Scanned, hk, Text.isIdentifier, h, hn]

/-- The kind of an identifier is told from its text. -/
theorem Kind.ofName_of_isIdentifier {text : String} (h : Text.isIdentifier text = true) :
    Kind.ofName text = .identifier := by
  rcases Kind.ofName_spec text with ⟨hk, ht⟩ | ⟨hk, -⟩
  · have hm : text ∈ Kind.keywords.map Kind.text := List.mem_map.mpr ⟨_, hk, ht⟩
    simp [Text.isIdentifier, hm] at h
  · exact hk

/-! ### Lexemes -/

namespace Lexeme

/-- What a class says of the text of a lexeme. -/
def Describes (cls : LexemeClass) (text : List Char) : Prop :=
  match cls with
  | .token kind => ∀ span, (⟨String.ofList text, kind, span⟩ : Token).Scanned
  | .name => Text.isName (String.ofList text) = true
  | .comment | .blank | .lineFeed => True

theorem all_take_takeWhile {p : Char → Bool} (text : List Char) :
    (text.take (text.takeWhile p).length).all p = true := by
  rw [List.prefix_iff_eq_take.mp (List.takeWhile_prefix p) |>.symm]
  exact List.all_takeWhile

/-- The first lexeme of a text has the class that its text calls for. -/
theorem describes_first (c : Char) (rest : List Char) :
    Describes (first c rest).1 (c :: rest.take (first c rest).2) := by
  apply first_induction (p := fun cls count => Describes cls (c :: rest.take count)) c rest
  · intro b hb count h
    cases b with
    | fixed kind d behind =>
        obtain ⟨hmark, htext, -⟩ := fixed_of_mem hb
        intro span
        apply Token.Scanned.of_text_eq (Bool.and_eq_true_iff.mp hmark).1
        rw [take_of_match? h, ← htext, String.ofList_toList]
    | name =>
        simp only [Branch.match?, Option.ite_none_right_eq_some, Option.some.injEq] at h
        simp [Branch.cls, Describes, Text.isName, h.1, ← h.2, all_take_takeWhile]
    | digits =>
        simp only [Branch.match?, Option.ite_none_right_eq_some, Option.some.injEq] at h
        intro span
        simp [Token.Scanned, Text.isNumeral, h.1, ← h.2, all_take_takeWhile]
    | illegal =>
        intro span
        exact True.intro
    | comment | blank => exact True.intro
  · intro _
    exact True.intro

theorem describes_cut {skip column : Nat} {text : List Char} {l : Lexeme}
    (h : l ∈ cut skip column text) : Describes l.cls l.text := by
  induction text generalizing skip column with
  | nil => simp [cut] at h
  | cons c rest ih =>
      cases skip with
      | succ skip => exact ih h
      | zero =>
          rcases List.mem_cons.mp h with rfl | h
          · exact describes_first c rest
          · exact ih h

theorem scanned_of_token {line : Int} {l : Lexeme} {t : Token} (h : Describes l.cls l.text)
    (ht : l.token? line = some t) : t.Scanned := by
  obtain ⟨cls, column, text⟩ := l
  cases cls with
  | token kind =>
      obtain rfl := Option.some.inj ht
      exact h _
  | name =>
      obtain rfl := Option.some.inj ht
      exact Token.scanned_of_isName h
  | comment => simp [token?] at ht
  | blank => simp [token?] at ht
  | lineFeed => simp [token?] at ht

end Lexeme

namespace Token

theorem scanned_ofLine {number : Int} {line : List Char} {t : Token}
    (h : t ∈ ofLine number line) : t.Scanned := by
  obtain ⟨l, hl, ht⟩ := List.mem_filterMap.mp h
  exact Lexeme.scanned_of_token (Lexeme.describes_cut hl) ht

theorem scanned_ofLines {number : Int} {lines : List (List Char)} {t : Token}
    (h : t ∈ ofLines number lines) : t.Scanned := by
  induction lines generalizing number with
  | nil => simp [ofLines] at h
  | cons line rest ih =>
      rcases List.mem_append.mp h with h | h
      · exact scanned_ofLine h
      · exact ih h

/-- Every token of a program is as programs have them. -/
theorem scanned_ofProgram {program : String} {t : Token} (h : t ∈ ofProgram program) :
    t.Scanned :=
  scanned_ofLines h

end Token

end ExprLang
