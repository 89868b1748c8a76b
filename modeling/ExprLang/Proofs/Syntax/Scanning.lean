import ExprLang.Proofs.Syntax.Tokens
import ExprLang.Proofs.Syntax.Unplaced
import ExprLang.Proofs.Token.Reading

/-!
# Scanning the text of a tree

The text of a well-formed tree scans to the tokens of the tree. Names and integers are followed by a
blank, a bracket or a punctuation mark, and operators by a blank or an operand, so no lexeme goes on
into the next one.
-/

namespace ExprLang

namespace Node

open Token (Scans anyText)
open Lexeme (separates)

variable {a : String} {ts : List Token}

/-! ### Fixed texts -/

theorem scans_leftParen : Scans anyText "(" [Kind.leftParen.token] :=
  .of_cases rfl rfl fun _ _ => rfl

theorem scans_rightParen : Scans anyText ")" [Kind.rightParen.token] :=
  .of_cases rfl rfl fun _ _ => rfl

theorem scans_leftBracket : Scans anyText "[" [Kind.leftBracket.token] :=
  .of_cases rfl rfl fun _ _ => rfl

theorem scans_rightBracket : Scans anyText "]" [Kind.rightBracket.token] :=
  .of_cases rfl rfl fun _ _ => rfl

theorem scans_semicolon : Scans anyText ";" [Kind.semicolon.token] :=
  .of_cases rfl rfl fun _ _ => rfl

theorem scans_space : Scans anyText " " [] :=
  .of_cases rfl rfl fun _ _ => rfl

theorem scans_parenthesized (h : Scans separates a ts) :
    Scans separates ("(" ++ a ++ ")") (parenthesized ts) :=
  scans_leftParen.between h scans_rightParen fun _ => rfl

theorem scans_join {α : Type} {f : α → String} {g : α → List Token} {xs : List α}
    (h : ∀ x ∈ xs, Scans separates (f x) (g x)) :
    Scans separates (", ".intercalate (xs.map f)) (commaSeparated (xs.map g)) := by
  have hc : Scans anyText ", " [Kind.comma.token] := .of_cases rfl rfl fun _ _ => rfl
  induction xs with
  | nil => exact ⟨rfl, fun _ _ => rfl⟩
  | cons x rest ih =>
      have hx := h x List.mem_cons_self
      have hrest := ih fun y hy => h y (List.mem_cons_of_mem x hy)
      cases rest with
      | nil => simpa [commaSeparated] using hx
      | cons y rest =>
          have hall := (hx.append hc fun _ _ => rfl).append hrest fun _ _ => rfl
          simpa [commaSeparated, String.intercalate_cons_cons] using hall

theorem scans_terminator (n : Node) : Scans anyText n.terminator (terminatorTokens n) := by
  unfold terminator terminatorTokens
  split
  · exact .of_cases rfl rfl fun _ _ => rfl
  · exact .of_cases rfl rfl fun _ _ => rfl

theorem separates_terminator (n : Node) (rest : List Char) :
    separates (n.terminator.toList ++ rest) = true := by
  unfold terminator
  split <;> rfl

theorem scans_statements {ns : List Node} (h : ∀ n ∈ ns, Scans separates n.print n.tokens) :
    Scans separates (printStatements ns) (statementTokens ns) := by
  induction ns with
  | nil => exact .of_cases rfl rfl fun _ _ => rfl
  | cons n rest ih =>
      have hn := h n List.mem_cons_self
      have hrest := ih fun m hm => h m (List.mem_cons_of_mem n hm)
      cases rest with
      | nil => exact hn
      | cons next rest =>
          have ht := hn.append (scans_terminator n) fun rest _ => separates_terminator n rest
          exact ht.append hrest fun _ _ => rfl

/-- The token of an identifier is told from its text. -/
theorem scans_identifier {text : String} (h : Text.isIdentifier text = true) :
    Scans separates text [Token.named text] := by
  have hn := Token.scans_name (Bool.and_eq_true_iff.mp h).1
  rwa [Kind.ofName_of_isIdentifier h] at hn

/-- Whether a text is not empty and starts with no equality sign, as that of an operand does. -/
def opens : List Char → Bool
  | [] => false
  | c :: _ => c != '='

theorem opens_append {text : List Char} (h : opens text = true) (rest : List Char) :
    opens (text ++ rest) = true := by
  cases text with
  | nil => cases h
  | cons c text => exact h

/-- A prefix operator is one token before an operand. -/
theorem scans_unary {k : Kind} (h : k.isUnary = true) : Scans opens k.text [k.token] := by
  cases k <;> simp only [Kind.isUnary, Bool.false_eq_true] at h
  case minus => exact .of_cases rfl rfl fun _ _ => rfl
  case bang =>
      refine ⟨rfl, fun rest hr => ?_⟩
      cases rest with
      | nil => cases hr
      | cons d rest =>
          have hp : Lexeme.pair? '!' d = none := by
            unfold Lexeme.pair?
            split <;> simp_all [opens]
          have hf : Lexeme.first '!' (d :: rest) = (.token .bang, 0) := by
            simp [Lexeme.first_eq_lookahead, Lexeme.lookahead, hp, Lexeme.single, Lexeme.symbol?]
          exact Lexeme.reading_cons hf

/-- An infix operator is one token if a blank follows. -/
theorem scans_binary {k : Kind} (h : k.isBinary = true) :
    Scans (fun rest => rest.head? == some ' ') k.text [k.token] := by
  refine ⟨?_, fun rest hr => ?_⟩
  · revert h
    cases k <;> decide
  · obtain ⟨rest, rfl⟩ : ∃ rest', rest = ' ' :: rest' := by
      cases rest with
      | nil => simp at hr
      | cons d rest => exact ⟨rest, by simpa using hr⟩
    cases k <;> simp only [Kind.isBinary, Bool.false_eq_true] at h <;> rfl

theorem opens_of_isNameChar {c : Char} {rest : List Char} (h : Lexeme.isNameChar c = true) :
    opens (c :: rest) = true := by
  rw [opens, bne_iff_ne]
  rintro rfl
  exact absurd h (by decide)

/-- The text of an integer that is not negative is a numeral. -/
theorem isNumeral_toString {v : Int} (h : 0 ≤ v) : Text.isNumeral (toString v) = true := by
  obtain ⟨n, rfl⟩ := Int.eq_ofNat_of_zero_le h
  exact Text.isNumeral_repr n

/-- The text of an expression starts as that of an operand. -/
theorem opens_print {e : Node} (h : WellFormed .expression e) : opens e.print.toList = true := by
  generalize hr : Role.expression = role at h
  induction h with
  | program | block | letBinding | returning | evaluated => cases hr
  | @identifier name span hn =>
      simp only [Text.isIdentifier, Text.isName, Bool.and_eq_true] at hn
      rw [print]
      cases ht : name.toList with
      | nil => simp [ht] at hn
      | cons c rest =>
          simp only [ht, Bool.and_eq_true] at hn
          exact opens_of_isNameChar (Lexeme.isNameChar_of_isNameStart hn.1.1)
  | @integer value span h₀ h₁ =>
      have hn := isNumeral_toString h₀
      simp only [Text.isNumeral, Bool.and_eq_true] at hn
      rw [print]
      cases ht : (toString value).toList with
      | nil => simp only [ht, List.isEmpty_nil, Bool.not_true, Bool.false_eq_true, false_and] at hn
      | cons c rest =>
          simp only [ht, List.all_cons, Bool.and_eq_true] at hn
          exact opens_of_isNameChar (Lexeme.isNameChar_of_isDigit hn.2.1)
  | @boolean value => cases value <;> simp [print, booleanText, opens]
  | call hc ha ih =>
      rw [print, String.toList_append, String.toList_append, String.toList_append]
      exact opens_append (opens_append (opens_append (ih hr) _) _) _
  | array | unary | binary | ifThen | ifElse | function | index => simp [print, opens]

/-- The text of a condition scans to its tokens in parentheses. -/
theorem scans_condition {c : Node} (h : Scans separates c.print c.tokens) :
    Scans separates (conditionText c c.print) (parenthesized c.bareTokens) := by
  unfold conditionText
  cases ho : c.isOperation with
  | true => simpa [tokens_eq_parenthesized ho] using h
  | false => simpa [tokens_eq_bareTokens ho] using scans_parenthesized h

theorem scans_block {ns : List Node} {span : Span}
    (h : ∀ n ∈ ns, Scans separates n.print n.tokens) :
    Scans separates (block ns span).print (block ns span).tokens := by
  rw [tokens_eq_bareTokens rfl, print, bareTokens]
  cases ns with
  | nil => exact .of_cases rfl rfl fun _ _ => rfl
  | cons n rest =>
      have ho : Scans anyText "\x7b " [Kind.leftBrace.token] :=
        .of_cases rfl rfl fun _ _ => rfl
      have hc : Scans anyText " \x7d" [Kind.rightBrace.token] :=
        .of_cases rfl rfl fun _ _ => rfl
      exact ho.between (scans_statements h) hc fun _ => rfl

theorem scans_letBinding {name : Name} {value : Node} {span : Span}
    (hn : Text.isIdentifier name.text = true) (h : Scans separates value.print value.tokens) :
    Scans separates (letBinding name value span).print (letBinding name value span).tokens := by
  have hw : Scans anyText "let " [Kind.letWord.token] := .of_cases rfl rfl fun _ _ => rfl
  have ha : Scans anyText " = " [Kind.assign.token] := .of_cases rfl rfl fun _ _ => rfl
  have hstart := (hw.append (scans_identifier hn) fun _ _ => rfl).append ha fun _ _ => rfl
  rw [tokens_eq_bareTokens rfl, print, bareTokens]
  exact hstart.between h scans_semicolon fun _ => rfl

theorem scans_returning {value : Node} {span : Span}
    (h : Scans separates value.print value.tokens) :
    Scans separates (returning value span).print (returning value span).tokens := by
  have hw : Scans anyText "return " [Kind.returnWord.token] :=
    .of_cases rfl rfl fun _ _ => rfl
  rw [tokens_eq_bareTokens rfl, print, bareTokens]
  exact hw.between h scans_semicolon fun _ => rfl

theorem scans_boolean {value : Bool} {span : Span} :
    Scans separates (boolean value span).print (boolean value span).tokens := by
  rw [tokens_eq_bareTokens rfl, print, bareTokens]
  cases value with
  | true => exact Token.scans_name rfl
  | false => exact Token.scans_name rfl

theorem scans_unaryOperation {operator : Token} {operand : Node} {span : Span}
    (ho : operator.IsUnary) (he : WellFormed .expression operand)
    (h : Scans separates operand.print operand.tokens) :
    Scans separates (unary operator operand span).print (unary operator operand span).tokens := by
  have hu := (scans_unary ho.1).append h fun rest _ => opens_append (opens_print he) rest
  rw [tokens_eq_parenthesized rfl, print, bareTokens, Token.unplaced_eq_token ho.2, ho.2]
  simpa [String.append_assoc] using scans_parenthesized hu

theorem scans_binaryOperation {left right : Node} {operator : Token} {span : Span}
    (ho : operator.IsBinary) (hl : Scans separates left.print left.tokens)
    (hr : Scans separates right.print right.tokens) :
    Scans separates (binary left operator right span).print
      (binary left operator right span).tokens := by
  have hop := (hl.append scans_space fun _ _ => rfl).append (scans_binary ho.1) fun _ _ => rfl
  have hopen := (hop.append scans_space fun _ _ => rfl).append hr fun _ _ => rfl
  have hall := scans_parenthesized hopen
  rw [tokens_eq_parenthesized rfl, print, bareTokens, Token.unplaced_eq_token ho.2, ho.2]
  simpa [String.append_assoc] using hall

/-- The text of a conditional up to the end of its first block. -/
theorem scans_consequence {condition consequence : Node}
    (hc : Scans separates condition.print condition.tokens)
    (ht : Scans separates consequence.print consequence.bareTokens) :
    Scans separates ("if " ++ conditionText condition condition.print ++ " " ++ consequence.print)
      (Kind.ifWord.token :: parenthesized condition.bareTokens ++ consequence.bareTokens) := by
  have hw : Scans anyText "if " [Kind.ifWord.token] := .of_cases rfl rfl fun _ _ => rfl
  have hall := ((hw.append (scans_condition hc) fun _ _ => rfl).append scans_space
    fun _ _ => rfl).append ht fun _ _ => rfl
  simpa using hall

theorem scans_ifElse {condition consequence alternative : Node} {span : Span}
    (hc : Scans separates condition.print condition.tokens)
    (ht : Scans separates consequence.print consequence.bareTokens)
    (hf : Scans separates alternative.print alternative.bareTokens) :
    Scans separates (ifElse condition consequence alternative span).print
      (ifElse condition consequence alternative span).tokens := by
  have he : Scans anyText " else " [Kind.elseWord.token] := .of_cases rfl rfl fun _ _ => rfl
  have hall := ((scans_consequence hc ht).append he fun _ _ => rfl).append hf fun _ _ => rfl
  rw [tokens_eq_bareTokens rfl, print, bareTokens]
  simpa using hall

theorem scans_function {parameters : List Name} {body : Node} {span : Span}
    (hp : ∀ p ∈ parameters, Text.isIdentifier p.text = true)
    (h : Scans separates body.print body.bareTokens) :
    Scans separates (function parameters body span).print
      (function parameters body span).tokens := by
  have hw : Scans anyText "func(" [Kind.funcWord.token, Kind.leftParen.token] :=
    .of_cases rfl rfl fun _ _ => rfl
  have hc : Scans anyText ") " [Kind.rightParen.token] := .of_cases rfl rfl fun _ _ => rfl
  have hnames := scans_join fun p hm => scans_identifier (hp p hm)
  have hall := ((hw.append hnames fun _ _ => rfl).append hc fun _ _ => rfl).append h fun _ _ => rfl
  rw [tokens_eq_bareTokens rfl, print, bareTokens]
  simpa [parenthesized] using hall

theorem scans_array {elements : List Node} {span : Span}
    (h : ∀ n ∈ elements, Scans separates n.print n.tokens) :
    Scans separates (array elements span).print (array elements span).tokens := by
  rw [tokens_eq_bareTokens rfl, print, bareTokens, printAll_eq_map, tokensAll_eq_map]
  exact scans_leftBracket.between (scans_join h) scans_rightBracket fun _ => rfl

/-- A text with arguments behind it. -/
theorem scans_arguments {arguments : List Node} (h : Scans separates a ts)
    (ha : ∀ n ∈ arguments, Scans separates n.print n.tokens) :
    Scans separates (a ++ "(" ++ ", ".intercalate (printAll arguments) ++ ")")
      (ts ++ parenthesized (commaSeparated (tokensAll arguments))) := by
  have hstart := h.append scans_leftParen fun _ _ => rfl
  have hall : Scans separates _ _ := hstart.between (scans_join ha) scans_rightParen fun _ => rfl
  rw [printAll_eq_map, tokensAll_eq_map]
  simpa [parenthesized] using hall

/-- A text with an index behind it. -/
theorem scans_position {position : Node} (h : Scans separates a ts)
    (hi : Scans separates position.print position.tokens) :
    Scans separates (a ++ "[" ++ position.print ++ "]")
      (ts ++ Kind.leftBracket.token :: position.tokens ++ [Kind.rightBracket.token]) := by
  have hstart := h.append scans_leftBracket fun _ _ => rfl
  have hall : Scans separates _ _ := hstart.between hi scans_rightBracket fun _ => rfl
  simpa using hall

theorem scans_index {collection position : Node} {span : Span}
    (hl : Scans separates collection.print collection.tokens)
    (hi : Scans separates position.print position.tokens) :
    Scans separates (index collection position span).print
      (index collection position span).tokens := by
  have hall := scans_parenthesized (scans_position hl hi)
  have hend : "])" = "]" ++ ")" := rfl
  rw [tokens_eq_parenthesized rfl, print, bareTokens, hend]
  simpa [String.append_assoc] using hall

/-- The text of a well-formed tree scans to its tokens. -/
theorem scans_print {role : Role} {n : Node} (h : WellFormed role n) :
    Scans separates n.print n.tokens := by
  induction h with
  | program hs ih =>
      rw [tokens_eq_bareTokens rfl, print, bareTokens]
      exact scans_statements ih
  | block hs ih => exact scans_block ih
  | letBinding hn hv ih => exact scans_letBinding hn ih
  | returning hv ih => exact scans_returning ih
  | evaluated he ih =>
      rw [tokens_eq_bareTokens rfl, print, bareTokens]
      exact ih
  | identifier hn =>
      rw [tokens_eq_bareTokens rfl, print, bareTokens]
      exact scans_identifier hn
  | integer h₀ h₁ =>
      rw [tokens_eq_bareTokens rfl, print, bareTokens]
      exact Token.scans_numeral (isNumeral_toString h₀)
  | boolean => exact scans_boolean
  | array he ih => exact scans_array ih
  | unary ho he ih => exact scans_unaryOperation ho he ih
  | binary hl ho hr ihl ihr => exact scans_binaryOperation ho ihl ihr
  | ifThen hc ht ihc iht =>
      rw [tokens_eq_bareTokens rfl, print, bareTokens]
      exact scans_consequence ihc (ht.tokens_block ▸ iht)
  | ifElse hc ht hf ihc iht ihf =>
      exact scans_ifElse ihc (ht.tokens_block ▸ iht) (hf.tokens_block ▸ ihf)
  | function hp hb ih => exact scans_function hp (hb.tokens_block ▸ ih)
  | call hc ha ihc iha =>
      rw [tokens_eq_bareTokens rfl, print, bareTokens]
      exact scans_arguments ihc iha
  | index hc hp ihc ihp => exact scans_index ihc ihp

end Node

end ExprLang
