import ExprLang.Proofs.Token.Tiling

/-!
# The longest match

A line is cut into the longest lexemes that it allows. At every cut the lexeme is the longest text at
the head of what is left that is a comment, the text of a bracket, punctuation mark or operator, a
name, a run of digits, a blank or just one character, and it counts as an illegal character only where
nothing else fits.

## Implementation notes

The forms of lexemes are told by their whole texts and know nothing of each other, while
`Lexeme.first` tries its branches in a certain order. For every form it is shown how much `first` takes
where a text of that form is at the head, so that no two forms have to be compared.
-/

namespace ExprLang

/-- A name has the kind of a keyword exactly if it is the text of the keyword. -/
theorem Kind.ofName_eq_iff {k : Kind} (hk : k ∈ Kind.keywords) {name : String} :
    Kind.ofName name = k ↔ name = k.text := by
  constructor
  · rintro rfl
    obtain ⟨-, ht⟩ | ⟨hid, -⟩ := Kind.ofName_spec name
    · exact ht.symm
    · rw [hid] at hk
      exact absurd hk (by decide)
  · rintro rfl
    revert k
    decide

namespace Lexeme

/-- The forms that a lexeme can have. -/
inductive Form where
  | comment
  /-- A bracket, punctuation mark or operator. -/
  | mark (kind : Kind)
  | name
  | digits
  | blank
  /-- Any single character. -/
  | character
deriving DecidableEq, Repr

/-- A text is of a form. A comment has everything behind its two slashes in it. -/
def Form.Fits : Form → List Char → Prop
  | .comment, text => ['/', '/'] <+: text
  | .mark kind, text => kind.isMark = true ∧ text = kind.text.toList
  | .name, text => Text.isName (String.ofList text) = true
  | .digits, text => Text.isNumeral (String.ofList text) = true
  | .blank, text => ∃ c ∈ [' ', '\r', '\t', '\x0c', '\x0b'], text = [c]
  | .character, text => ∃ c, text = [c]

/-- The kind of the token that a text of a form is, if it is one. A name is a keyword if its whole text
is that of the keyword. -/
inductive Form.Stands : Form → List Char → Option Kind → Prop where
  | comment {text : List Char} : Stands .comment text none
  | mark {kind : Kind} {text : List Char} : Stands (.mark kind) text (some kind)
  | keyword {kind : Kind} (h : kind ∈ Kind.keywords) : Stands .name kind.text.toList (some kind)
  | identifier {text : List Char} (h : ∀ kind ∈ Kind.keywords, text ≠ kind.text.toList) :
      Stands .name text (some .identifier)
  | digits {text : List Char} : Stands .digits text (some .integer)
  | blank {text : List Char} : Stands .blank text none
  | character {text : List Char} : Stands .character text (some .illegal)

/-- The class of the lexemes of a form. -/
def Form.cls : Form → LexemeClass
  | .comment => .comment
  | .mark kind => .token kind
  | .name => .name
  | .digits => .token .integer
  | .blank => .blank
  | .character => .token .illegal

/-- The longest match at the head of what is left of a line. It is only a character of no other form
where no other form fits. -/
structure Takes (rest : List Char) (form : Form) (text : List Char) : Prop where
  fits : form.Fits text
  starts : text <+: rest
  longest : ∀ (form' : Form) (text' : List Char), form'.Fits text' → text' <+: rest →
    text'.length ≤ text.length
  illegal : form = .character → ∀ (form' : Form) (text' : List Char), form'.Fits text' →
    text' <+: rest → form' = .character

/-! ### What is taken where a form fits -/

section First

variable {c : Char} {rest text : List Char}

theorem first_comment (rest : List Char) :
    first '/' ('/' :: rest) = (.comment, 1 + (rest.takeWhile (· != '\n')).length) := rfl

/-- A comment goes up to the end of the line. -/
theorem length_comment (h : '\n' ∉ rest) :
    1 + (rest.takeWhile (· != '\n')).length = ('/' :: rest).length := by
  rw [Text.takeWhile_of_lineFeed_notMem h, List.length_cons, Nat.add_comm]

/-- Where an operator of two characters is at the head, the lexeme has two characters at least, and it
is not illegal. -/
theorem first_of_pair {d : Char} {kind : Kind} (h : pair? c d = some kind) :
    1 ≤ (first c (d :: rest)).2 ∧ (first c (d :: rest)).1 ≠ .token .illegal := by
  have hk : kind ≠ .illegal := by
    rintro rfl
    unfold pair? at h
    split at h <;> cases h
  simp only [first_eq_lookahead, lookahead, h]
  split
  · exact ⟨Nat.le_add_right 1 _, LexemeClass.noConfusion⟩
  · exact ⟨Nat.le_refl 1, fun heq => hk (LexemeClass.token.inj heq)⟩

/-- Where a mark of one character is at the head, the lexeme is not illegal. -/
theorem first_of_symbol {kind : Kind} (h : symbol? c = some kind) :
    (first c rest).1 ≠ .token .illegal := by
  have hk : kind ≠ .illegal := by
    rintro rfl
    unfold symbol? at h
    split at h <;> cases h
  have hsingle : ∀ rest, (single c rest).1 ≠ .token .illegal := by
    intro rest
    simp only [single, h]
    exact fun heq => hk (LexemeClass.token.inj heq)
  rw [first_eq_lookahead]
  cases rest with
  | nil => exact hsingle []
  | cons d rest =>
      cases hp : pair? c d with
      | some kind' =>
          rw [← first_eq_lookahead]
          exact (first_of_pair hp).2
      | none =>
          simp only [lookahead, hp]
          split
          · exact LexemeClass.noConfusion
          · exact hsingle (d :: rest)

theorem first_of_isNameStart (h : isNameStart c = true) :
    first c rest = (.name, (rest.takeWhile isNameChar).length) := by
  obtain ⟨hs, hf⟩ := first_of_isNameChar (isNameChar_of_isNameStart h) rest
  simp [hf, single, hs, h]

theorem first_of_isDigit (h : c.isDigit = true) :
    first c rest = (.token .integer, (rest.takeWhile Char.isDigit).length) := by
  obtain ⟨hs, hf⟩ := first_of_isNameChar (isNameChar_of_isDigit h) rest
  simp [hf, single, hs, not_isNameStart_of_isDigit h, h]

theorem first_of_blank (h : c ∈ [' ', '\r', '\t', '\x0c', '\x0b']) :
    first c rest = (.blank, 0) := by
  simp only [List.mem_cons, List.not_mem_nil, or_false] at h
  obtain rfl | rfl | rfl | rfl | rfl := h <;> cases rest <;> rfl

theorem length_le_takeWhile {p : Char → Bool} {run : List Char} (h : run <+: rest)
    (hrun : ∀ d ∈ run, p d = true) : run.length ≤ (rest.takeWhile p).length := by
  obtain ⟨behind, rfl⟩ := h
  rw [List.takeWhile_append_of_pos hrun, List.length_append]
  exact Nat.le_add_right _ _

/-- A mark is a character or a pair of characters that `first` knows. -/
theorem mark_cases {kind : Kind} (h : kind.isMark = true) :
    (∃ c, kind.text.toList = [c] ∧ symbol? c = some kind) ∨
      ∃ c d, kind.text.toList = [c, d] ∧ pair? c d = some kind := by
  cases kind
  case equal | notEqual | atMost | atLeast => exact Or.inr ⟨_, _, rfl, rfl⟩
  case funcWord | letWord | trueWord | falseWord | ifWord | elseWord | returnWord | identifier
      | integer | illegal | endOfInput => exact absurd h (by decide)
  all_goals exact Or.inl ⟨_, rfl, rfl⟩

/-- Where a text of some form is at the head of a line, the lexeme there is as long at least, and it is
illegal only if the form is that of any character. -/
theorem Form.Fits.first {form : Form} (h : form.Fits text) (hp : text <+: c :: rest)
    (hn : '\n' ∉ c :: rest) :
    text.length ≤ (first c rest).2 + 1 ∧
      (form ≠ .character → (Lexeme.first c rest).1 ≠ .token .illegal) := by
  cases form with
  | comment =>
      obtain ⟨behind, hbehind⟩ := List.IsPrefix.trans h hp
      simp only [List.cons_append, List.nil_append, List.cons.injEq] at hbehind
      obtain ⟨rfl, rfl⟩ := hbehind
      rw [first_comment, length_comment (by simpa using hn)]
      exact ⟨hp.length_le, fun _ => LexemeClass.noConfusion⟩
  | mark kind =>
      obtain ⟨hm, rfl⟩ := h
      obtain ⟨d, htext, hd⟩ | ⟨d, e, htext, hd⟩ := mark_cases hm
      · rw [htext] at hp ⊢
        obtain ⟨rfl, -⟩ := List.cons_prefix_cons.mp hp
        exact ⟨by simp, fun _ => first_of_symbol hd⟩
      · rw [htext] at hp ⊢
        obtain ⟨rfl, behind, rfl⟩ := List.cons_prefix_cons.mp hp
        obtain ⟨hcount, hcls⟩ : 1 ≤ (Lexeme.first d (e :: behind)).2 ∧ _ := first_of_pair hd
        exact ⟨Nat.succ_le_succ hcount, fun _ => hcls⟩
  | name =>
      cases text with
      | nil => simp [Form.Fits, Text.isName] at h
      | cons d run =>
          obtain ⟨rfl, hrun⟩ := List.cons_prefix_cons.mp hp
          simp only [Form.Fits, Text.isName, String.toList_ofList, Bool.and_eq_true,
            List.all_eq_true] at h
          rw [first_of_isNameStart h.1]
          exact ⟨Nat.succ_le_succ (length_le_takeWhile hrun h.2), fun _ => LexemeClass.noConfusion⟩
  | digits =>
      cases text with
      | nil => simp [Form.Fits, Text.isNumeral] at h
      | cons d run =>
          obtain ⟨rfl, hrun⟩ := List.cons_prefix_cons.mp hp
          simp only [Form.Fits, Text.isNumeral, String.toList_ofList, Bool.and_eq_true,
            List.all_eq_true, List.forall_mem_cons] at h
          rw [first_of_isDigit h.2.1]
          exact ⟨Nat.succ_le_succ (length_le_takeWhile hrun h.2.2), fun _ => by simp⟩
  | blank =>
      obtain ⟨d, hd, rfl⟩ := h
      obtain ⟨rfl, -⟩ := List.cons_prefix_cons.mp hp
      rw [first_of_blank hd]
      exact ⟨Nat.le_refl 1, fun _ => LexemeClass.noConfusion⟩
  | character =>
      obtain ⟨d, rfl⟩ := h
      exact ⟨by simp, fun hne => absurd rfl hne⟩

/-! ### The form of what is taken -/

/-- What is taken at the head of a line has the form of its class. -/
theorem exists_form (rest : List Char) (hc : c ≠ '\n') :
    ∃ form : Form, (first c rest).1 = form.cls ∧ form.Fits (c :: rest.take (first c rest).2) := by
  apply first_induction
    (p := fun cls count => ∃ form : Form, cls = form.cls ∧ form.Fits (c :: rest.take count)) c rest
  · intro b hb count h
    cases b with
    | fixed kind d behind =>
        obtain ⟨hmark, htext, -⟩ := fixed_of_mem hb
        refine ⟨.mark kind, rfl, hmark, ?_⟩
        rw [take_of_match? h, htext]
    | comment =>
        simp only [Branch.match?] at h
        split at h
        · next text =>
            cases h
            refine ⟨.comment, rfl, text.take (text.takeWhile (· != '\n')).length, ?_⟩
            simp [Nat.add_comm 1]
        · cases h
    | name =>
        simp only [Branch.match?, Option.ite_none_right_eq_some, Option.some.injEq] at h
        refine ⟨.name, rfl, ?_⟩
        simp [Form.Fits, Text.isName, h.1, ← h.2, all_take_takeWhile]
    | digits =>
        simp only [Branch.match?, Option.ite_none_right_eq_some, Option.some.injEq] at h
        refine ⟨.digits, rfl, ?_⟩
        simp [Form.Fits, Text.isNumeral, h.1, ← h.2, all_take_takeWhile]
    | blank =>
        simp only [Branch.match?, Option.ite_none_right_eq_some, Option.some.injEq] at h
        rw [← h.2]
        exact ⟨.blank, rfl, c, of_decide_eq_true h.1, rfl⟩
    | illegal =>
        simp only [Branch.match?, Option.ite_none_left_eq_some, Option.some.injEq] at h
        rw [← h.2]
        exact ⟨.character, rfl, c, rfl⟩
  · intro hf
    exact absurd hf hc

/-- What is taken at the head of a line is the longest match. -/
theorem takes_first (h : '\n' ∉ c :: rest) :
    ∃ form : Form, (first c rest).1 = form.cls ∧
      Takes (c :: rest) form (c :: rest.take (first c rest).2) := by
  have hc : c ≠ '\n' := fun heq => h (heq ▸ List.mem_cons_self)
  obtain ⟨form, hcls, hfits⟩ := exists_form rest hc
  have hle := first_count_le c rest
  refine ⟨form, hcls, hfits, ⟨rest.drop (first c rest).2, by simp⟩, ?_, ?_⟩
  · intro form' text' hfits' hp
    have hlength := (hfits'.first hp h).1
    rw [List.length_cons, List.length_take]
    omega
  · intro hform form' text' hfits' hp
    by_contra hne
    apply (hfits'.first hp h).2 hne
    rw [hcls, hform]
    rfl

end First

/-! ### The token of a lexeme -/

/-- The token of a lexeme has the kind that its form calls for. -/
theorem token?_of_form {l : Lexeme} {form : Form} (h : l.cls = form.cls) (number : Int) :
    ∃ kind : Option Kind, form.Stands l.text kind ∧
      l.token? number = kind.map fun k =>
        ⟨String.ofList l.text, k, Span.onLine number l.column (l.column + l.text.length)⟩ := by
  obtain ⟨cls, column, text⟩ := l
  obtain rfl : cls = form.cls := h
  cases form with
  | comment => exact ⟨none, .comment, rfl⟩
  | mark kind => exact ⟨some kind, .mark, rfl⟩
  | name =>
      refine ⟨some (Kind.ofName (String.ofList text)), ?_, rfl⟩
      obtain ⟨hk, ht⟩ | ⟨hk, hn⟩ := Kind.ofName_spec (String.ofList text)
      · have hkeyword := Form.Stands.keyword hk
        rwa [ht, String.toList_ofList] at hkeyword
      · rw [hk]
        apply Form.Stands.identifier
        rintro kind hmem rfl
        exact hn (List.mem_map.mpr ⟨kind, hmem, by simp⟩)
  | digits => exact ⟨some .integer, .digits, rfl⟩
  | blank => exact ⟨none, .blank, rfl⟩
  | character => exact ⟨some .illegal, .character, rfl⟩

/-- The token of a name is a keyword if its text is that of the keyword. -/
theorem token?_of_name {l : Lexeme} (h : l.cls = .name) (number : Int) :
    ∃ t, l.token? number = some t ∧ ∀ k ∈ Kind.keywords, t.kind = k ↔ t.text = k.text := by
  obtain ⟨cls, column, text⟩ := l
  obtain rfl : cls = .name := h
  exact ⟨_, rfl, fun k hk => Kind.ofName_eq_iff hk⟩

/-! ### The cuts of a line -/

/-- The lexemes behind others are those of what is left of the text. -/
theorem Tiles.split {column : Nat} {text : List Char} {front ls : List Lexeme}
    (h : Tiles column text (front ++ ls)) :
    ∃ rest, text = front.flatMap Lexeme.text ++ rest ∧
      Tiles (column + (front.flatMap Lexeme.text).length) rest ls := by
  induction front generalizing column text with
  | nil => exact ⟨text, rfl, h⟩
  | cons l front ih =>
      cases h with
      | @cons _ c rest _ h =>
          obtain ⟨behind, hbehind, htiles⟩ := ih h
          have hle := first_count_le c rest
          refine ⟨behind, ?_, ?_⟩
          · rw [List.flatMap_cons, List.append_assoc, ← hbehind, List.cons_append,
              List.take_append_drop]
          · have hcolumn : column + (first c rest).2 + 1 + (front.flatMap Lexeme.text).length =
                column + (List.flatMap Lexeme.text
                  (⟨(first c rest).1, column, c :: rest.take (first c rest).2⟩ :: front)).length := by
              simp only [List.flatMap_cons, List.length_append, List.length_cons,
                List.length_take]
              omega
            rwa [hcolumn] at htiles

/-- The first lexeme is the one at the head of the text. -/
theorem Tiles.head {column : Nat} {text : List Char} {l : Lexeme} {ls : List Lexeme}
    (h : Tiles column text (l :: ls)) :
    ∃ c rest, text = c :: rest ∧
      l = ⟨(first c rest).1, column, c :: rest.take (first c rest).2⟩ := by
  cases h with
  | cons h => exact ⟨_, _, rfl, rfl⟩

/-- The texts of the lexemes make up the text. -/
theorem Tiles.flatMap_text {column : Nat} {text : List Char} {ls : List Lexeme}
    (h : Tiles column text ls) : ls.flatMap Lexeme.text = text := by
  rw [← List.append_nil ls] at h
  obtain ⟨rest, hrest, htiles⟩ := h.split
  cases htiles
  rw [hrest, List.append_nil]

end Lexeme

open Lexeme

/-- A line without a line feed is cut into the longest lexemes. Their texts make up the line, and its
tokens are those of the lexemes. Every lexeme is the longest match at the head of what is left of the
line behind the lexemes before it, and its token, if it has one, is of the kind that its form calls
for; so it is illegal only where no form fits but that of any character. A lexeme that is shaped like a
name is a keyword exactly if its whole text is that of the keyword. -/
theorem Token.ofLine_longest (number : Int) {line : List Char} (h : '\n' ∉ line) :
    (Lexeme.ofLine line).flatMap Lexeme.text = line ∧
      ofLine number line = (Lexeme.ofLine line).filterMap (token? number) ∧
      ∀ front l behind, Lexeme.ofLine line = front ++ l :: behind →
        l.column = (front.flatMap Lexeme.text).length ∧
        (∃ (form : Form) (kind : Option Kind),
          Takes ((l :: behind).flatMap Lexeme.text) form l.text ∧ form.Stands l.text kind ∧
          l.token? number = kind.map fun k =>
            ⟨String.ofList l.text, k, Span.onLine number l.column (l.column + l.text.length)⟩) ∧
        (Text.isName (String.ofList l.text) = true →
          ∃ t, l.token? number = some t ∧ ∀ k ∈ Kind.keywords, t.kind = k ↔ t.text = k.text) := by
  have htiles : Tiles 0 line (Lexeme.ofLine line) := tiles_cut 0 line
  refine ⟨htiles.flatMap_text, rfl, ?_⟩
  intro front l behind hcut
  rw [hcut] at htiles
  obtain ⟨rest, hline, hrest⟩ := htiles.split
  have hfeed : '\n' ∉ rest := by
    intro hm
    apply h
    rw [hline]
    exact List.mem_append_right _ hm
  rw [hrest.flatMap_text]
  obtain ⟨c, behind, rfl, hl⟩ := hrest.head
  obtain ⟨form, hcls, htakes⟩ := takes_first hfeed
  refine ⟨by simp [hl], ?_, ?_⟩
  · have hform : l.cls = form.cls := by rw [hl, hcls]
    obtain ⟨kind, hstands, htoken⟩ := token?_of_form hform number
    refine ⟨form, kind, ?_, hstands, htoken⟩
    rw [hl]
    exact htakes
  · intro hname
    apply token?_of_name
    rw [hl] at hname ⊢
    simp only [Text.isName, String.toList_ofList, Bool.and_eq_true] at hname
    rw [first_of_isNameStart hname.1]

/-- A name between operators and a carriage return: it starts with a keyword and is none. -/
theorem Token.ofLine_longest_name :
    '\n' ∉ "<==ifx\r//=".toList ∧
      ∃ front l behind, Lexeme.ofLine "<==ifx\r//=".toList = front ++ l :: behind ∧
        front.map Lexeme.text = ["<=".toList, "=".toList] ∧ l.text = "ifx".toList ∧
        (∃ (form : Form) (kind : Option Kind),
          Takes ((l :: behind).flatMap Lexeme.text) form l.text ∧ form.Stands l.text kind ∧
          l.token? 1 = kind.map fun k =>
            ⟨String.ofList l.text, k, Span.onLine 1 l.column (l.column + l.text.length)⟩) ∧
        ∃ t, l.token? 1 = some t ∧ ∀ k ∈ Kind.keywords, t.kind = k ↔ t.text = k.text := by
  have hn : '\n' ∉ "<==ifx\r//=".toList := by decide
  obtain ⟨front, l, behind, hcut, hfront, htext⟩ : ∃ front l behind,
      Lexeme.ofLine "<==ifx\r//=".toList = front ++ l :: behind ∧
        front.map Lexeme.text = ["<=".toList, "=".toList] ∧ l.text = "ifx".toList :=
    ⟨[_, _], _, [_, _], rfl, rfl, rfl⟩
  obtain ⟨-, -, hall⟩ := Token.ofLine_longest 1 hn
  obtain ⟨-, hform, hname⟩ := hall front l behind hcut
  refine ⟨hn, front, l, behind, hcut, hfront, htext, hform, hname ?_⟩
  rw [htext]
  decide

end ExprLang
