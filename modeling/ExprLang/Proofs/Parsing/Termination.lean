import ExprLang.Proofs.Parsing.Alike
import ExprLang.Proofs.Parsing.Integers
import ExprLang.Proofs.Token.Scanned

/-!
# Every parse ends

A parse of any tokens ends, and nothing but an integer token that cannot be read keeps it from
having a tree. Neither the count of rounds nor the number of levels is what makes it end: the loops
end by themselves, and with two levels for every token the number of levels does not matter.
-/

namespace ExprLang

namespace Token

/-- The integers of a program can be read exactly if none of them is too long. -/
theorem readable_ofProgram_iff (program : String) :
    Readable (ofProgram program) ↔
      ∀ t ∈ ofProgram program, t.kind = .integer → t.text.toList.length ≤ Text.maxDigits := by
  constructor
  · intro h t ht hk
    exact (Text.exists_readInt_iff ((scanned_ofProgram ht).isNumeral hk)).mp (h t ht hk)
  · intro h t ht hk
    exact (Text.exists_readInt_iff ((scanned_ofProgram ht).isNumeral hk)).mpr (h t ht hk)

/-- The end of the input is not among the tokens of a program. -/
theorem beforeEnd_ofProgram (program : String) :
    beforeEnd (ofProgram program) = ofProgram program := by
  have hk : ∀ t ∈ ofProgram program, (t.kind != .endOfInput) = true := by
    intro t ht
    simpa using (scanned_ofProgram ht).ne_endOfInput
  calc
    beforeEnd (ofProgram program) = beforeEnd (ofProgram program ++ []) := by
      rw [List.append_nil]
    _ = ofProgram program ++ [] := List.takeWhile_append_of_pos hk
    _ = ofProgram program := List.append_nil _

end Token

/-- With two levels for every token, a program has a tree exactly if none of its integers is too
long. -/
theorem exists_parseWithin_iff {depth : Nat} {program : String}
    (hd : 2 * (Token.ofProgram program).length + 1 < depth) :
    (∃ parsed, parseWithin depth program = .ok parsed) ↔
      ∀ t ∈ Token.ofProgram program, t.kind = .integer →
        t.text.toList.length ≤ Text.maxDigits := by
  rw [← Token.readable_ofProgram_iff]
  constructor
  · rintro ⟨parsed, h⟩
    rw [← Token.beforeEnd_ofProgram]
    exact TokenStream.readable_of_parseWithin h (TokenStream.withinLimit_of_lt h hd)
  · intro h
    exact TokenStream.exists_parseWithin depth h

/-- Every parse ends. Its loops end by themselves; it has a program as its tree, or an integer token
cannot be read; and with two levels for every token it does not reach the nesting limit, so that it
is the same with any more levels. A program has no tree only if it has an integer of too many
digits. -/
theorem parseWithin_total (depth : Nat) :
    Parse.Unbounded (Parse.expression depth) (Parse.statement depth) ∧
      (∀ stream : TokenStream,
        ((∃ statements span diagnostics,
            stream.parseWithin depth = .ok ⟨.program statements span, diagnostics⟩) ∨
          ∃ t ∈ stream.pending, t.kind = .integer ∧
            ∃ reason, Text.readInt t.text = .error reason ∧
              stream.parseWithin depth = .error (.unreadableInteger reason)) ∧
        ∀ parsed, stream.parseWithin depth = .ok parsed → 2 * stream.pending.length + 1 < depth →
          parsed.WithinLimit ∧ Token.Readable (Token.beforeEnd stream.pending) ∧
            ∀ levels, depth ≤ levels → stream.parseWithin levels = .ok parsed) ∧
      ∀ program : String,
        ((∃ statements span diagnostics,
            parseWithin depth program = .ok ⟨.program statements span, diagnostics⟩) ∨
          ∃ t ∈ Token.ofProgram program, t.kind = .integer ∧ Text.isNumeral t.text = true ∧
            Text.maxDigits < t.text.toList.length ∧
            parseWithin depth program =
              .error (.unreadableInteger (.tooLong t.text.toList.length))) ∧
        (2 * (Token.ofProgram program).length + 1 < depth →
          ((∃ parsed, parseWithin depth program = .ok parsed) ↔
            ∀ t ∈ Token.ofProgram program, t.kind = .integer →
              t.text.toList.length ≤ Text.maxDigits)) := by
  refine ⟨Parse.unbounded_of_orderly (Parse.orderly_expression depth)
    (Parse.orderly_statement depth), fun stream => ⟨?_, ?_⟩, fun program => ⟨?_, ?_⟩⟩
  · exact TokenStream.parseWithin_cases depth stream
  · intro parsed h hd
    have hl := TokenStream.withinLimit_of_lt h hd
    exact ⟨hl, TokenStream.readable_of_parseWithin h hl,
      fun levels hle => TokenStream.parseWithin_deeper h hl hle⟩
  · rcases TokenStream.parseWithin_cases depth (.ofProgram program) with
      hp | ⟨t, ht, hk, reason, hr, hp⟩
    · exact Or.inl hp
    · have hn := (Token.scanned_ofProgram ht).isNumeral hk
      obtain ⟨hl, rfl⟩ := Text.eq_tooLong_of_readInt hn hr
      exact Or.inr ⟨t, ht, hk, hn, hl, hp⟩
  · exact exists_parseWithin_iff

end ExprLang
