import ExprLang.Proofs.Parsing.Parentheses
import ExprLang.Proofs.Parsing.Truncation
import ExprLang.Proofs.Token.Scanned

/-!
# Sources of tokens

The tokens of a parse come from a program or from a list, and a list may name the end of the input or
leave it out. What is read depends on neither that nor the places of the tokens: with the same levels,
sources that give the same texts and kinds up to the end of the input have the same outcome. A program
has fewer levels than the list of its tokens, since a part of them is left for finding the next token.
So it has the outcome of the list where its levels are enough, and comes less far where they are not.

## Implementation notes

Sources are not compared with each other. Each one is compared with the list of its texts and kinds
alone, as tokens that stand nowhere and without the end of the input. All places are the same then,
so a parse of that list has nothing left in which two sources differ.
-/

namespace ExprLang

namespace Token

/-- The text and the kind of a token. -/
def wording (t : Token) : String × Kind :=
  (t.text, t.kind)

/-- A token that stands nowhere. -/
def ofWording (w : String × Kind) : Token :=
  ⟨w.1, w.2, Span.nowhere⟩

/-- A token without its place and, if it is the end of the input, without its text. -/
def gist (t : Token) : Token :=
  if t.kind = .endOfInput then ending Span.nowhere else t.unplaced

@[simp] theorem kind_gist (t : Token) : t.gist.kind = t.kind := by
  by_cases h : t.kind = .endOfInput
  · rw [gist, if_pos h, h]; rfl
  · rw [gist, if_neg h]; rfl

end Token

/-- A complaint about tokens without their places. Only the text that its message shows is kept for
every token. -/
def Complaint.gist : Complaint → Complaint
  | .unexpectedToken expected got => .unexpectedToken expected got.gist
  | .noOperand token => .noOperand token.gist
  | .integerTooLarge token => .integerTooLarge token.unplaced
  | .nestedTooDeep => .nestedTooDeep

/-- Most messages show only the kind of a token. -/
theorem Complaint.message_of_kind {t t' : Token} (h : t'.kind = t.kind) :
    (∀ expected, message (.unexpectedToken expected t') = message (.unexpectedToken expected t)) ∧
      message (.noOperand t') = message (.noOperand t) := by
  obtain ⟨text, kind, span⟩ := t
  obtain ⟨text', kind', span'⟩ := t'
  cases h
  exact ⟨fun _ => rfl, rfl⟩

@[simp] theorem Complaint.message_gist (c : Complaint) : c.gist.message = c.message := by
  cases c with
  | unexpectedToken expected got =>
      simpa only [gist] using (message_of_kind got.kind_gist).1 expected
  | noOperand token => simpa only [gist] using (message_of_kind token.kind_gist).2
  | integerTooLarge token => rfl
  | nestedTooDeep => rfl

/-- A source of tokens with these texts and kinds, up to the end of the input: a program, or tokens at
any places with or without the end of the input behind them. -/
inductive TokenSource.Gives : TokenSource → List (String × Kind) → Prop where
  | program (text : String) : Gives (.program text) ((Token.ofProgram text).map Token.wording)
  | tokens {ts : List Token} (h : ∀ t ∈ ts, t.kind ≠ .endOfInput) :
      Gives (.tokens ts) (ts.map Token.wording)
  | ended {ts : List Token} (h : ∀ t ∈ ts, t.kind ≠ .endOfInput) {last : Token}
      (hl : last.kind = .endOfInput) : Gives (.tokens (ts ++ [last])) (ts.map Token.wording)

/-- Two parses end alike: with trees that are the same apart from places and with complaints of the
same form and the same message one by one, or with the same fault. -/
def SameOutcome : Except Fault Parsed → Except Fault Parsed → Prop
  | .ok parsed, .ok parsed' =>
      parsed.tree.sameAs parsed'.tree = true ∧
        parsed.diagnostics.map (·.complaint.gist) = parsed'.diagnostics.map (·.complaint.gist) ∧
        parsed.diagnostics.map (·.message) = parsed'.diagnostics.map (·.message)
  | .error fault, .error fault' => fault = fault'
  | _, _ => False

/-- A parsed program without its places. -/
def Parsed.gist (parsed : Parsed) : Node × List Complaint :=
  (parsed.tree.unplaced, parsed.diagnostics.map (·.complaint.gist))

theorem sameOutcome_iff_gist {r r' : Except Fault Parsed} :
    SameOutcome r r' ↔ r.map Parsed.gist = r'.map Parsed.gist := by
  cases r with
  | error fault =>
      cases r' with
      | error fault' => simp [SameOutcome, Except.map]
      | ok parsed' => simp [SameOutcome, Except.map]
  | ok parsed =>
      cases r' with
      | error fault' => simp [SameOutcome, Except.map]
      | ok parsed' =>
          have hmessages : parsed.diagnostics.map (·.complaint.gist) =
              parsed'.diagnostics.map (·.complaint.gist) →
              parsed.diagnostics.map (·.message) = parsed'.diagnostics.map (·.message) := by
            intro h
            simpa [Diagnostic.message, Function.comp_def] using
              congrArg (List.map Complaint.message) h
          simp only [SameOutcome, Except.map, Parsed.gist, Except.ok.injEq, Prod.mk.injEq,
            Node.sameAs_iff]
          exact ⟨fun h => ⟨h.1, h.2.1⟩, fun h => ⟨h.1, h.2, hmessages h.2⟩⟩

/-! ### Forgetting the places -/

/-- All places are forgotten. -/
def Moving.forget : Moving where
  span _ := Span.nowhere
  span_cover _ _ := (Span.cover_self _).symm

namespace Parse

/-- Tokens of the same kind, and of the same text unless the input ends there, of which the second
one stands nowhere. -/
structure LikeNowhere (t t' : Token) : Prop where
  kind : t'.kind = t.kind
  span : t'.span = Span.nowhere
  text : t.kind ≠ .endOfInput → t'.text = t.text

theorem LikeNowhere.eq_unplaced {t t' : Token} (h : LikeNowhere t t')
    (hk : t.kind ≠ .endOfInput) : t' = t.unplaced := by
  obtain ⟨text, kind, span⟩ := t'
  obtain ⟨hkind, hspan, htext⟩ := h
  rw [Token.unplaced, Token.mk.injEq]
  exact ⟨htext hk, hkind, hspan⟩

theorem LikeNowhere.gist {t t' : Token} (h : LikeNowhere t t') : t'.gist = t.gist := by
  by_cases hk : t.kind = .endOfInput
  · rw [Token.gist, Token.gist, if_pos hk, if_pos (h.kind.trans hk)]
  · rw [h.eq_unplaced hk]
    rfl

theorem gist_of_relates {c c' : Complaint} (h : Complaint.Relates LikeNowhere c c') :
    c'.gist = c.gist := by
  cases h with
  | unexpectedToken expected h => rw [Complaint.gist, Complaint.gist, h.gist]
  | noOperand h => rw [Complaint.gist, Complaint.gist, h.gist]
  | integerTooLarge h htext =>
      rw [Complaint.gist, Complaint.gist, Token.unplaced, Token.unplaced, htext, h.kind]
  | nestedTooDeep => rfl

/-- The second parse has the tokens that are left without their places, but none of those at which the
input ends, and the same complaints apart from places. -/
structure Forgets (s s' : ParseState) : Prop where
  upcoming : ∃ ends : List Token,
    (∀ t ∈ ends, t.kind = .endOfInput) ∧ s.upcoming = s'.stream.pending ++ ends
  endPlace : s'.stream.endPlace = Span.nowhere
  complaints : s.diagnostics.map (·.complaint.gist) = s'.diagnostics.map (·.complaint.gist)

namespace Forgets

variable {s s' : ParseState} (h : Forgets s s')

include h

theorem token : LikeNowhere s.token s'.token := by
  obtain ⟨ends, hends, hupcoming⟩ := h.upcoming
  cases hp : s'.stream.pending with
  | cons t rest =>
      -- The second parse is at a token that both have.
      rw [hp, List.cons_append] at hupcoming
      have htoken : s'.token = s.token.unplaced := by
        rw [ParseState.token_of_upcoming hupcoming, ParseState.token, TokenStream.head, hp]
        rfl
      rw [htoken]
      exact ⟨rfl, rfl, fun _ => rfl⟩
  | nil =>
      -- The input has ended for both, for the first one with a token or without one.
      rw [hp, List.nil_append] at hupcoming
      have hending : s'.token = Token.ending Span.nowhere := by
        rw [ParseState.token, TokenStream.head, hp, h.endPlace]
        rfl
      have hkind : s.token.kind = .endOfInput := by
        cases hends' : ends with
        | nil => exact ParseState.kind_of_upcoming_nil (hupcoming.trans hends')
        | cons t rest =>
            rw [hends'] at hupcoming hends
            rw [ParseState.kind_of_upcoming hupcoming]
            exact hends t List.mem_cons_self
      rw [hending]
      exact ⟨hkind.symm, rfl, fun hk => absurd hkind hk⟩

theorem next : Forgets s.next s'.next where
  upcoming := by
    obtain ⟨ends, hends, hupcoming⟩ := h.upcoming
    rw [ParseState.next_upcoming, ParseState.next_pending, hupcoming]
    cases s'.stream.pending with
    | nil => exact ⟨ends.tail, fun t ht => hends t (List.mem_of_mem_tail ht), rfl⟩
    | cons t rest => exact ⟨ends, hends, rfl⟩
  endPlace := h.endPlace
  complaints := h.complaints

theorem noting {c c' : Complaint} (hc : Complaint.Relates LikeNowhere c c') (span span' : Span) :
    Forgets (s.noting c span) (s'.noting c' span') where
  upcoming := h.upcoming
  endPlace := h.endPlace
  complaints := by
    simp [h.complaints, gist_of_relates hc]

end Forgets

/-- A parse of the same tokens that all stand nowhere, without a token where the input ends. -/
def forgetting : Alignment Moving.forget where
  Like := LikeNowhere
  Aligned := Forgets
  Ahead _ := True
  Deeper := False
  like_token _ := ⟨rfl, rfl, fun _ => rfl⟩
  kind h := h.kind
  span h := h.span
  eq_token h hk := h.eq_unplaced hk
  token h := h.token
  next h _ := h.next
  noting span hc h := h.noting hc span _
  ahead_of_follows _ _ := True.intro
  not_ahead h _ _ _ := h

end Parse

/-! ### Parses with more levels -/

/-- The first of two parses ends like the second one, as far as it comes. If it gives up for its
nesting, it says so in its last diagnostic and in no other, and apart from places its statements and
its other complaints are the first ones of the second parse. -/
def Shortens : Except Fault Parsed → Except Fault Parsed → Prop
  | .ok parsed, r =>
      (parsed.WithinLimit → SameOutcome (.ok parsed) r) ∧
        (¬ parsed.WithinLimit → ∃ front place,
          parsed.diagnostics = front ++ [⟨.nestedTooDeep, place⟩] ∧
          (∀ d ∈ front, d.complaint ≠ .nestedTooDeep) ∧
          ∀ parsed', r = .ok parsed' →
            front.map (·.complaint.gist) <+: parsed'.diagnostics.map (·.complaint.gist) ∧
            ∃ statements span statements' span',
              parsed.tree = .program statements span ∧ parsed'.tree = .program statements' span' ∧
                statements.map Node.unplaced <+: statements'.map Node.unplaced)
  | .error fault, r => r = .error fault

/-- A parse is cut short by a lower limit. -/
theorem TokenStream.shortens (stream : TokenStream) {depth depth' : Nat} (hd : depth ≤ depth') :
    Shortens (stream.parseWithin depth) (stream.parseWithin depth') := by
  cases h : stream.parseWithin depth with
  | error fault => exact parseWithin_of_error hd h
  | ok parsed =>
      constructor
      · intro hl
        rw [parseWithin_deeper h hl hd]
        exact sameOutcome_iff_gist.mpr rfl
      · intro hl
        obtain ⟨front, place, hf, hnone⟩ := diagnostics_of_not_withinLimit h hl
        refine ⟨front, place, hf, hnone, ?_⟩
        intro parsed' h'
        obtain ⟨hfront, statements, span, statements', span', ht, ht', hs⟩ :=
          prefix_of_parseWithin hd h h' hf
        exact ⟨hfront.map _, statements, span, statements', span', ht, ht', hs.map _⟩

@[simp] theorem Complaint.gist_eq_nestedTooDeep {c : Complaint} :
    c.gist = .nestedTooDeep ↔ c = .nestedTooDeep := by
  cases c <;> simp [gist]

/-- Whether a parse gave up for its nesting does not depend on places. -/
theorem Parsed.withinLimit_iff_gist {parsed : Parsed} :
    parsed.WithinLimit ↔ .nestedTooDeep ∉ parsed.gist.2 := by
  simp [WithinLimit, gist]

theorem Parsed.exists_statements_of_gist {parsed parsed' : Parsed} (h : parsed.gist = parsed'.gist)
    {statements : List Node} {span : Span} (ht : parsed'.tree = .program statements span) :
    ∃ statements' span', parsed.tree = .program statements' span' ∧
      statements'.map Node.unplaced = statements.map Node.unplaced := by
  have htree : parsed.tree.unplaced = .program (Node.unplacedAll statements) Span.nowhere := by
    rw [(Prod.mk.inj h).1, ht, Node.unplaced]
  cases hn : parsed.tree with
  | program statements' span' =>
      refine ⟨statements', span', rfl, ?_⟩
      rw [hn, Node.unplaced, Node.program.injEq] at htree
      rw [← Node.unplacedAll_eq_map, ← Node.unplacedAll_eq_map, htree.1]
  | _ => rw [hn] at htree; cases htree

/-- If the complaints of two parses are the same and the last one is about nesting, those in front of
it are the same. -/
theorem Parsed.exists_front_of_gist {parsed parsed' : Parsed} (h : parsed.gist = parsed'.gist)
    {front : List Diagnostic} {place : Span}
    (hf : parsed'.diagnostics = front ++ [⟨.nestedTooDeep, place⟩]) :
    ∃ front' place', parsed.diagnostics = front' ++ [⟨.nestedTooDeep, place'⟩] ∧
      front'.map (·.complaint.gist) = front.map (·.complaint.gist) := by
  have hcomplaints : parsed.diagnostics.map (·.complaint.gist) =
      front.map (·.complaint.gist) ++ [.nestedTooDeep] := by
    rw [(Prod.mk.inj h).2, hf, List.map_append]
    rfl
  obtain ⟨front', last, hf', hfront, hlast⟩ := List.map_eq_append_iff.mp hcomplaints
  obtain ⟨⟨complaint, place'⟩, rfl, hc⟩ := List.map_eq_singleton_iff.mp hlast
  obtain rfl : complaint = .nestedTooDeep := Complaint.gist_eq_nestedTooDeep.mp hc
  exact ⟨front', place', hf', hfront⟩

/-- How far a parse comes does not depend on places. -/
theorem Shortens.of_gist {r r₁ r' : Except Fault Parsed}
    (h : r.map Parsed.gist = r₁.map Parsed.gist) (hs : Shortens r₁ r') : Shortens r r' := by
  cases r with
  | error fault =>
      cases r₁ with
      | error fault₁ =>
          cases h
          exact hs
      | ok parsed₁ => cases h
  | ok parsed =>
      cases r₁ with
      | error fault₁ => cases h
      | ok parsed₁ =>
          have hgist : parsed.gist = parsed₁.gist := Except.ok.inj h
          have hlimit : parsed.WithinLimit ↔ parsed₁.WithinLimit := by
            rw [Parsed.withinLimit_iff_gist, Parsed.withinLimit_iff_gist, hgist]
          constructor
          · intro hl
            have hsame := sameOutcome_iff_gist.mp (hs.1 (hlimit.mp hl))
            exact sameOutcome_iff_gist.mpr (h.trans hsame)
          · intro hl
            obtain ⟨front₁, place₁, hf₁, hnone₁, hfirst₁⟩ := hs.2 fun hl₁ => hl (hlimit.mpr hl₁)
            obtain ⟨front, place, hf, hfront⟩ := Parsed.exists_front_of_gist hgist hf₁
            refine ⟨front, place, hf, ?_, ?_⟩
            · intro d hd hdeep
              obtain ⟨d₁, hd₁, hg⟩ := List.mem_map.mp (hfront ▸ List.mem_map_of_mem hd)
              rw [hdeep] at hg
              exact hnone₁ d₁ hd₁ (Complaint.gist_eq_nestedTooDeep.mp hg)
            · intro parsed' hr'
              obtain ⟨hcomplaints, statements₁, span₁, statements', span', ht₁, ht', hstatements⟩ :=
                hfirst₁ parsed' hr'
              obtain ⟨statements, span, ht, hst⟩ := Parsed.exists_statements_of_gist hgist ht₁
              exact ⟨hfront ▸ hcomplaints, statements, span, statements', span', ht, ht',
                hst ▸ hstatements⟩

/-! ### Sources -/

namespace TokenSource

variable {source source' : TokenSource} {wording : List (String × Kind)}

theorem map_unplaced (ts : List Token) :
    ts.map Token.unplaced = (ts.map Token.wording).map Token.ofWording := by
  rw [List.map_map]
  rfl

/-- At the start of a source the tokens to come are those that it gives, and then the input ends. -/
theorem Gives.forgets (h : source.Gives wording) :
    Parse.Forgets { stream := source.stream }
      { stream := { pending := wording.map Token.ofWording } } where
  upcoming := by
    cases h with
    | program text =>
        refine ⟨[], List.forall_mem_nil _, ?_⟩
        rw [ParseState.upcoming, stream, TokenStream.ofProgram, map_unplaced, List.append_nil]
    | tokens h =>
        refine ⟨[], List.forall_mem_nil _, ?_⟩
        rw [ParseState.upcoming, stream, map_unplaced, List.append_nil]
    | @ended ts h last hl =>
        refine ⟨[last.unplaced], List.forall_mem_singleton.mpr hl, ?_⟩
        rw [ParseState.upcoming, stream, List.map_append, map_unplaced, List.map_singleton]
  endPlace := rfl
  complaints := rfl

/-- A source is parsed like the list of its texts and kinds. -/
theorem Gives.gist_parseWithin (h : source.Gives wording) (depth : Nat) :
    (source.stream.parseWithin depth).map Parsed.gist =
      (TokenStream.parseWithin depth { pending := wording.map Token.ofWording }).map
        Parsed.gist := by
  have hp : Parse.Alike Parse.forgetting Parse.anyKind Moving.forget.node (Parse.program depth)
      (Parse.program depth) := Parse.alike_program (Or.inl rfl)
  have hagree := hp.agrees _ _ h.forgets True.intro True.intro
  unfold TokenStream.parseWithin
  cases hs : Parse.program depth { stream := source.stream } with
  | ok tree s =>
      rw [hs] at hagree
      obtain ⟨s', hs', hf⟩ := hagree
      rw [hs']
      simp only [Except.map, Parsed.gist, Moving.unplaced_node, hf.complaints]
  | error fault s =>
      rw [hs] at hagree
      obtain ⟨hd, -⟩ | ⟨s', hs', -⟩ := hagree
      · exact hd.elim
      · rw [hs']

/-- Sources that give the same are parsed alike with the same levels. -/
theorem Gives.gist_eq (h : source.Gives wording) (h' : source'.Gives wording) (depth : Nat) :
    (source.stream.parseWithin depth).map Parsed.gist =
      (source'.stream.parseWithin depth).map Parsed.gist :=
  (h.gist_parseWithin depth).trans (h'.gist_parseWithin depth).symm

/-- Of sources that give the same, the one with fewer levels is cut short. -/
theorem Gives.shortens (h : source.Gives wording) (h' : source'.Gives wording) {depth depth' : Nat}
    (hd : depth ≤ depth') :
    Shortens (source.stream.parseWithin depth) (source'.stream.parseWithin depth') :=
  (source'.stream.shortens hd).of_gist (h.gist_eq h' depth)

theorem Gives.scan (program : String) :
    (TokenSource.tokens (Token.scan program)).Gives
      ((Token.ofProgram program).map Token.wording) :=
  .ended (fun _ ht => (Token.scanned_ofProgram ht).ne_endOfInput) rfl

theorem Gives.ofProgram (program : String) :
    (TokenSource.tokens (Token.ofProgram program)).Gives
      ((Token.ofProgram program).map Token.wording) :=
  .tokens fun _ ht => (Token.scanned_ofProgram ht).ne_endOfInput

theorem Gives.sameOutcome (h : source.Gives wording) (h' : source'.Gives wording)
    (hl : source.pullLevels = source'.pullLevels) (limit : Nat) :
    SameOutcome (source.parseWithin limit) (source'.parseWithin limit) := by
  unfold parseWithin
  rw [hl]
  exact sameOutcome_iff_gist.mpr (h.gist_eq h' _)

theorem Gives.shortens_parseWithin (h : source.Gives wording) (h' : source'.Gives wording)
    (hl : source'.pullLevels ≤ source.pullLevels) (limit : Nat) :
    Shortens (source.parseWithin limit) (source'.parseWithin limit) :=
  h.shortens h' (Nat.sub_le_sub_left hl limit)

/-- Where the levels are enough for parentheses in a list of tokens, but not for finding those tokens,
the program is given up and the list is read. -/
theorem parseWithin_parens_between {limit count : Nat} (h : count + 2 ≤ limit)
    (hs : limit < count + 2 + scanLevels) :
    (∃ place place', (program (parens count)).parseWithin limit =
        .ok ⟨.program [] place, [⟨.nestedTooDeep, place'⟩]⟩) ∧
      ∃ place place' place'', (tokens (Token.ofProgram (parens count))).parseWithin limit =
        .ok ⟨.program [.evaluated (.integer 1 place) place'] place'', []⟩ := by
  have hp := Token.unplaced_parens count
  constructor
  · apply TokenStream.parseWithin_parens_of_lt _ _ hp
    rw [pullLevels]
    omega
  · apply TokenStream.parseWithin_parens _ _ hp
    rwa [pullLevels, Nat.sub_zero]

/-- A parse depends on nothing but the texts and the kinds of its tokens and the levels that there are:
two sources that give the same tokens have the same outcome with the same levels, and the one that
leaves fewer levels is cut short. In particular a program is parsed like the list of its tokens as far
as its levels go, the list may have the end of the input or not, and blanks, comments and line ends do
not matter. -/
theorem parseWithin_of_wording (limit : Nat) :
    (∀ (wording : List (String × Kind)) (source source' : TokenSource), source.Gives wording →
      source'.Gives wording →
      (∀ depth, SameOutcome (source.stream.parseWithin depth) (source'.stream.parseWithin depth)) ∧
      (source.pullLevels = source'.pullLevels →
        SameOutcome (source.parseWithin limit) (source'.parseWithin limit)) ∧
      (source'.pullLevels ≤ source.pullLevels →
        Shortens (source.parseWithin limit) (source'.parseWithin limit))) ∧
    (∀ text : String,
      Shortens ((program text).parseWithin limit) ((tokens (Token.scan text)).parseWithin limit) ∧
      Shortens ((program text).parseWithin limit)
        ((tokens (Token.ofProgram text)).parseWithin limit) ∧
      SameOutcome ((tokens (Token.scan text)).parseWithin limit)
        ((tokens (Token.ofProgram text)).parseWithin limit)) ∧
    ∀ text text' : String,
      (Token.ofProgram text).map Token.wording = (Token.ofProgram text').map Token.wording →
      SameOutcome ((program text).parseWithin limit) ((program text').parseWithin limit) := by
  refine ⟨?_, ?_, ?_⟩
  · intro wording source source' h h'
    exact ⟨fun depth => sameOutcome_iff_gist.mpr (h.gist_eq h' depth),
      fun hl => h.sameOutcome h' hl limit, fun hl => h.shortens_parseWithin h' hl limit⟩
  · intro text
    have hp := Gives.program text
    have hscan := Gives.scan text
    have hlist := Gives.ofProgram text
    exact ⟨hp.shortens_parseWithin hscan (Nat.zero_le _) limit,
      hp.shortens_parseWithin hlist (Nat.zero_le _) limit, hscan.sameOutcome hlist rfl limit⟩
  · intro text text' hwording
    have hp := Gives.program text
    rw [hwording] at hp
    exact hp.sameOutcome (.program text') rfl limit

/-- A program that breaks off, and a list of its tokens that ends with a token of another text. -/
theorem parseWithin_of_wording_unfinished :
    (program "let a // a name\n\t=").Gives
        [("let", .letWord), ("a", .identifier), ("=", .assign)] ∧
      (tokens [⟨"let", .letWord, ⟨7, 9, 4, 2⟩⟩, ⟨"a", .identifier, Span.nowhere⟩,
          ⟨"=", .assign, ⟨1, 1, 0, 1⟩⟩, ⟨"end", .endOfInput, Span.nowhere⟩]).Gives
        [("let", .letWord), ("a", .identifier), ("=", .assign)] ∧
      Shortens (program "let a // a name\n\t=").parse
        (tokens [⟨"let", .letWord, ⟨7, 9, 4, 2⟩⟩, ⟨"a", .identifier, Span.nowhere⟩,
          ⟨"=", .assign, ⟨1, 1, 0, 1⟩⟩, ⟨"end", .endOfInput, Span.nowhere⟩]).parse := by
  have hprogram := Gives.program "let a // a name\n\t="
  have hkinds : ∀ t ∈ [⟨"let", .letWord, ⟨7, 9, 4, 2⟩⟩, ⟨"a", .identifier, Span.nowhere⟩,
      (⟨"=", .assign, ⟨1, 1, 0, 1⟩⟩ : Token)], t.kind ≠ .endOfInput := by decide
  have hlist := Gives.ended hkinds
    (show Token.kind ⟨"end", .endOfInput, Span.nowhere⟩ = .endOfInput from rfl)
  exact ⟨hprogram, hlist,
    ((parseWithin_of_wording parsingLimit).1 _ _ _ hprogram hlist).2.2 (Nat.zero_le _)⟩

/-- A program of so many parentheses is nested too deeply, but the list of its tokens is not. -/
theorem not_sameOutcome_parens :
    (program (parens 2493)).Gives ((Token.ofProgram (parens 2493)).map Token.wording) ∧
      (tokens (Token.ofProgram (parens 2493))).Gives
        ((Token.ofProgram (parens 2493)).map Token.wording) ∧
      ¬ SameOutcome (program (parens 2493)).parse
        (tokens (Token.ofProgram (parens 2493))).parse := by
  refine ⟨Gives.program _, Gives.ofProgram _, ?_⟩
  have hlist : 2493 + 2 ≤ parsingLimit := by decide
  have hprogram : parsingLimit < 2493 + 2 + scanLevels := by decide
  obtain ⟨⟨p₁, p₂, hp⟩, q₁, q₂, q₃, hq⟩ := parseWithin_parens_between hlist hprogram
  rw [parse, parse, hp, hq]
  rintro ⟨-, hcomplaints, -⟩
  cases hcomplaints

end TokenSource

end ExprLang
