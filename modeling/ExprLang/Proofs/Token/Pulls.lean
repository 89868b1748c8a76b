import ExprLang.Proofs.Token.Scanned
import ExprLang.Token.Scanner

/-!
# Pulling tokens in any order

Whatever is asked of a scanner, and in whatever order, it hands out the one sequence of tokens of
its program: what was handed out, followed by what is left, is that sequence. The end of the input
comes when nothing is left, and then for ever.

## Implementation notes

A scanner stands for the stream of the tokens that are left (`Scanner.Holds`). A step of the scanner
is a step of that stream, and the loops of the scanner are the ways of taking tokens from a stream
(`TokenStream.pull`). Runs are then followed on streams, which know nothing of lines.
-/

namespace ExprLang

namespace Scanner

open TokenStream (Pull)

/-- A scanner stands for a stream: it has the same tokens to hand out, and it has come to the end of
the input only if there are none. The end of the input is not among the tokens themselves. -/
structure Holds (s : Scanner) (stream : TokenStream) : Prop where
  left : s.feed.left = stream.pending
  place : Token.endPlace s.program = stream.endPlace
  ended : ∀ t, s.ended = some t → t.val = Token.ending stream.endPlace ∧ stream.pending = []
  tokens : ∀ t ∈ stream.pending, t.kind ≠ .endOfInput

variable {s : Scanner} {stream : TokenStream}

theorem holds_ofProgram (program : String) : (ofProgram program).Holds (.ofProgram program) where
  left := rfl
  place := rfl
  ended _ ht := by cases ht
  tokens _ ht := (Token.scanned_ofProgram ht).ne_endOfInput

/-! ### Steps -/

/-- Where a token is left, the first of them is handed out. -/
theorem Holds.next_of_cons {t : Token} {rest : List Token} {place : Span}
    (h : s.Holds ⟨t :: rest, place⟩) : s.next.1 = t ∧ s.next.2.Holds ⟨rest, place⟩ := by
  have hended : s.ended = none := by
    cases he : s.ended with
    | none => rfl
    | some e => cases (h.ended e he).2
  have hleft : s.feed.left = t :: rest := h.left
  cases hf : s.feed.next? with
  | none => cases hleft.symm.trans (Feed.next?_eq_none hf)
  | some found =>
      obtain ⟨t', feed⟩ := found
      obtain ⟨rfl, rfl⟩ := List.cons.inj (hleft.symm.trans (Feed.next?_eq_some hf))
      have hnext : s.next = (t, { s with feed }) := by
        simp only [next, hended, hf]
      rw [hnext]
      refine ⟨rfl, rfl, h.place, fun e he => ?_, fun u hu => h.tokens u (List.mem_cons_of_mem t hu)⟩
      cases hended.symm.trans he

/-- Where nothing is left, the end of the input is handed out. -/
theorem Holds.next_of_nil {place : Span} (h : s.Holds ⟨[], place⟩) :
    s.next.1 = Token.ending place ∧ s.next.2.Holds ⟨[], place⟩ := by
  cases hended : s.ended with
  | some e =>
      have hnext : s.next = (e.val, s) := by
        simp only [next, hended]
      rw [hnext]
      exact ⟨(h.ended e hended).1, h⟩
  | none =>
      have hleft : s.feed.left = [] := h.left
      have hend : Token.endOf s.program = Token.ending place := congrArg Token.ending h.place
      cases hf : s.feed.next? with
      | some found => cases hleft.symm.trans (Feed.next?_eq_some hf)
      | none =>
          have hnext : s.next =
              (Token.endOf s.program, { s with ended := some ⟨Token.endOf s.program, rfl⟩ }) := by
            simp only [next, hended, hf]
          rw [hnext]
          refine ⟨hend, h.left, h.place, fun e he => ?_, h.tokens⟩
          cases he
          exact ⟨hend, rfl⟩

/-- The tokens that are left are handed out, and then the end of the input. -/
theorem Holds.scan {left : List Token} {place : Span} (h : s.Holds ⟨left, place⟩) :
    s.scan.1 = left ++ [Token.ending place] ∧ s.scan.2.Holds ⟨[], place⟩ := by
  induction left generalizing s with
  | nil =>
      obtain ⟨hnext, hlater⟩ := h.next_of_nil
      rw [Scanner.scan, dif_pos (by rw [hnext]; rfl)]
      exact ⟨congrArg (fun t => [t]) hnext, hlater⟩
  | cons t rest ih =>
      obtain ⟨hnext, hlater⟩ := h.next_of_cons
      have hkind : s.next.1.kind ≠ .endOfInput := by
        rw [hnext]
        exact h.tokens t List.mem_cons_self
      obtain ⟨hrest, hend⟩ := ih hlater
      rw [Scanner.scan, dif_neg hkind]
      constructor
      · simp only [hnext, hrest, List.cons_append]
      · exact hend

/-- An iteration hands out no more tokens than it is asked for and stops where nothing is left. -/
theorem Holds.take {left : List Token} {place : Span} (h : s.Holds ⟨left, place⟩) (count : Nat) :
    (s.take count).1 = left.take count ∧ (s.take count).2.Holds ⟨left.drop count, place⟩ := by
  induction count generalizing s left with
  | zero => exact ⟨rfl, h⟩
  | succ count ih =>
      cases left with
      | nil =>
          obtain ⟨hnext, hlater⟩ := h.next_of_nil
          rw [Scanner.take, if_pos (by rw [hnext]; rfl)]
          exact ⟨rfl, hlater⟩
      | cons t rest =>
          obtain ⟨hnext, hlater⟩ := h.next_of_cons
          have hkind : s.next.1.kind ≠ .endOfInput := by
            rw [hnext]
            exact h.tokens t List.mem_cons_self
          obtain ⟨hrest, hend⟩ := ih hlater
          rw [Scanner.take, if_neg hkind]
          constructor
          · simp only [hnext, hrest, List.take_succ_cons]
          · exact hend

/-! ### Calls -/

/-- What a call takes from the stream; the others only tell something. -/
def Call.pull? : Call → Option Pull
  | .next => some .next
  | .scan => some .rest
  | .take count => some (.upTo count)
  | .ending | .line .. => none

/-- A call that takes tokens is a pull on the stream. -/
theorem Holds.call_pull (h : s.Holds stream) {c : Call} {p : Pull} (hc : c.pull? = some p) :
    (s.call c).1 = (stream.pull p).1 ∧ (s.call c).2.Holds (stream.pull p).2 := by
  obtain ⟨left, place⟩ := stream
  cases c with
  | next =>
      cases hc
      cases left with
      | nil =>
          obtain ⟨hnext, hlater⟩ := h.next_of_nil
          exact ⟨congrArg (fun t => [t]) hnext, hlater⟩
      | cons t rest =>
          obtain ⟨hnext, hlater⟩ := h.next_of_cons
          exact ⟨congrArg (fun t => [t]) hnext, hlater⟩
  | scan =>
      cases hc
      exact h.scan
  | take count =>
      cases hc
      exact h.take count
  | ending => cases hc
  | line number text => cases hc

/-- A call that takes nothing leaves the scanner as it is. -/
theorem call_of_pull?_eq_none {c : Call} (hc : c.pull? = none) (s : Scanner) :
    (s.call c).2 = s := by
  cases c with
  | ending => rfl
  | line number text => rfl
  | next => cases hc
  | scan => cases hc
  | take count => cases hc

/-! ### Runs -/

/-- The tokens that the calls of a run took, by their answers. -/
def handedOut : List Call → List (List Token) → List Token
  | c :: calls, answer :: answers =>
      (if c.pull?.isSome then answer else []) ++ handedOut calls answers
  | _, _ => []

/-- The tokens of a program among some tokens: all but the end of the input. -/
def proper (ts : List Token) : List Token :=
  ts.filter (·.kind != .endOfInput)

@[simp] theorem proper_append (ts us : List Token) : proper (ts ++ us) = proper ts ++ proper us :=
  List.filter_append ..

theorem proper_eq_self {ts : List Token} (h : ∀ t ∈ ts, t.kind ≠ .endOfInput) :
    proper ts = ts :=
  List.filter_eq_self.mpr fun t ht => by simpa using h t ht

/-- A pull takes the first ones of the tokens that are left, and the end of the input only if it
leaves nothing. -/
theorem pull_spec (h : ∀ t ∈ stream.pending, t.kind ≠ .endOfInput) (p : Pull) :
    proper (stream.pull p).1 ++ (stream.pull p).2.pending = stream.pending ∧
      (stream.pull p).2.endPlace = stream.endPlace ∧
      ∀ t ∈ (stream.pull p).1, t.kind = .endOfInput →
        t = Token.ending stream.endPlace ∧ (stream.pull p).2.pending = [] := by
  obtain ⟨left, place⟩ := stream
  cases p with
  | next =>
      cases left with
      | nil =>
          refine ⟨rfl, rfl, fun t ht _ => ⟨?_, rfl⟩⟩
          exact List.mem_singleton.mp ht
      | cons t rest =>
          have ht : t.kind ≠ .endOfInput := h t List.mem_cons_self
          refine ⟨?_, rfl, fun u hu hk => ?_⟩
          · exact congrArg (· ++ rest) (proper_eq_self (List.forall_mem_singleton.mpr ht))
          · cases List.mem_singleton.mp hu
            exact absurd hk ht
  | rest =>
      refine ⟨?_, rfl, fun t ht hk => ⟨?_, rfl⟩⟩
      · calc
          proper (left ++ [Token.ending place]) ++ [] = proper left ++ [] ++ [] := by
            rw [proper_append]
            rfl
          _ = left := by
            rw [proper_eq_self h, List.append_nil, List.append_nil]
      · rcases List.mem_append.mp ht with ht | ht
        · exact absurd hk (h t ht)
        · exact List.mem_singleton.mp ht
  | upTo count =>
      have htaken : ∀ t ∈ left.take count, t.kind ≠ .endOfInput :=
        fun t ht => h t (List.mem_of_mem_take ht)
      refine ⟨?_, rfl, fun t ht hk => absurd hk (htaken t ht)⟩
      calc
        proper (left.take count) ++ left.drop count = left.take count ++ left.drop count := by
          rw [proper_eq_self htaken]
        _ = left := List.take_append_drop count left

/-- Whatever the calls of a run are, what they took and what is left make up what there was, and
where they took the end of the input nothing is left. -/
theorem Holds.run (h : s.Holds stream) (calls : List Call) :
    ∃ later : TokenStream, (s.run calls).2.Holds later ∧ later.endPlace = stream.endPlace ∧
      proper (handedOut calls (s.run calls).1) ++ later.pending = stream.pending ∧
      ∀ t ∈ handedOut calls (s.run calls).1, t.kind = .endOfInput →
        t = Token.ending stream.endPlace ∧ later.pending = [] := by
  induction calls generalizing s stream with
  | nil => exact ⟨stream, h, rfl, rfl, fun t ht => absurd ht List.not_mem_nil⟩
  | cons c rest ih =>
      cases hc : c.pull? with
      | none =>
          obtain ⟨later, hheld, hplace, hall, hend⟩ := ih h
          simp only [Scanner.run, handedOut, hc, call_of_pull?_eq_none hc, Option.isSome_none,
            Bool.false_eq_true, if_false, List.nil_append]
          exact ⟨later, hheld, hplace, hall, hend⟩
      | some p =>
          obtain ⟨hanswer, hbehind⟩ := h.call_pull hc
          obtain ⟨htaken, hsame, hlast⟩ := pull_spec h.tokens p
          obtain ⟨later, hheld, hplace, hall, hend⟩ := ih hbehind
          simp only [Scanner.run, handedOut, hc, Option.isSome_some, if_true, hanswer]
          refine ⟨later, hheld, hplace.trans hsame, ?_, fun t ht hk => ?_⟩
          · rw [proper_append, List.append_assoc, hall, htaken]
          · rcases List.mem_append.mp ht with ht | ht
            · obtain ⟨rfl, hnone⟩ := hlast t ht hk
              rw [hnone, List.append_eq_nil_iff] at hall
              exact ⟨rfl, hall.2⟩
            · rw [← hsame]
              exact hend t ht hk

/-- Where nothing is left, nothing comes any more but the end of the input. -/
theorem Holds.next_behind_end (h : s.Holds stream) (hl : stream.pending = []) (calls : List Call) :
    (s.run calls).2.next.1 = Token.ending stream.endPlace := by
  obtain ⟨⟨left, place⟩, hheld, rfl, hall, -⟩ := h.run calls
  rw [hl, List.append_eq_nil_iff] at hall
  obtain ⟨-, rfl⟩ := hall
  exact hheld.next_of_nil.1

/-- A new scanner gives all tokens of its program at once. -/
theorem scan_ofProgram (program : String) : (ofProgram program).scan.1 = Token.scan program :=
  (holds_ofProgram program).scan.1

theorem proper_scan (program : String) : proper (Token.scan program) = Token.ofProgram program := by
  have htokens : proper (Token.ofProgram program) = Token.ofProgram program :=
    proper_eq_self (holds_ofProgram program).tokens
  rw [Token.scan, proper_append, htokens]
  exact List.append_nil _

/-- A scanner hands out one sequence of tokens, whatever it is asked in whatever order. Behind every
run of calls there are tokens left such that those taken so far and those left are the tokens that a
new scanner gives at once: none is lost, repeated or moved. An iteration takes as many of them as it
is asked for if there are so many, and never the end of the input; a scan takes all of them and one
end of the input. Once a call took the end of the input nothing is left, and where nothing is left
every later request for a token gives that same end of the input. -/
theorem run_hands_out (program : String) (calls : List Call) :
    ∃ answers s left, (ofProgram program).run calls = (answers, s) ∧
      proper (handedOut calls answers) ++ left = proper (ofProgram program).scan.1 ∧
      (∀ t ∈ left, t.kind ≠ .endOfInput) ∧
      (∀ count, (s.take count).1 = left.take count ∧
        (s.take count).1.length = min count left.length) ∧
      s.scan.1 = left ++ [Token.endOf program] ∧
      (∀ e ∈ handedOut calls answers, e.kind = .endOfInput →
        left = [] ∧ ∀ later, (s.run later).2.next.1 = e) ∧
      (left = [] → ∀ later, (s.run later).2.next.1 = Token.endOf program) := by
  obtain ⟨⟨left, place⟩, hheld, hplace, hall, hend⟩ := (holds_ofProgram program).run calls
  have hof : Token.ending place = Token.endOf program := congrArg Token.ending hplace
  have hnext : left = [] → ∀ later,
      (((ofProgram program).run calls).2.run later).2.next.1 = Token.endOf program := by
    intro hnone later
    rw [hheld.next_behind_end hnone later, hof]
  refine ⟨_, _, left, rfl, ?_, hheld.tokens, fun count => ?_, ?_, fun e he hk => ?_, hnext⟩
  · rw [scan_ofProgram, proper_scan]
    exact hall
  · have htake := (hheld.take count).1
    exact ⟨htake, by rw [htake, List.length_take]⟩
  · rw [hheld.scan.1, hof]
  · obtain ⟨rfl, hnone⟩ := hend e he hk
    exact ⟨hnone, hnext hnone⟩

example : ((ofProgram "a (\n\nb").run [.take 1, .ending, .next, .line 7 ['c'], .take 4, .next]).1 =
    [[⟨"a", .identifier, .onLine 1 0 1⟩], [⟨"", .endOfInput, .onLine 3 1 1⟩],
      [⟨"(", .leftParen, .onLine 1 2 3⟩], [⟨"c", .identifier, .onLine 7 0 1⟩],
      [⟨"b", .identifier, .onLine 3 0 1⟩], [⟨"", .endOfInput, .onLine 3 1 1⟩]] := by decide

end Scanner

end ExprLang
