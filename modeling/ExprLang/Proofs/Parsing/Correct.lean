import ExprLang.Proofs.Grammar.Printed
import ExprLang.Proofs.Grammar.Sound
import ExprLang.Proofs.Parsing.Depth

/-!
# Correctness of parsing

The programs that are read without a diagnostic are those that the grammar derives. Every tree that
is read is well-formed, also where parts of the program could not be read. The text of a well-formed
program is read as the program itself, apart from places, and so is the text of every tree that was
read.

All this is as long as the nesting limit is not reached. It is not reached if there are more than
two levels for every token.
-/

namespace ExprLang

/-! ### The language -/

/-- A program is read without a diagnostic exactly if the grammar derives its tokens, unless the
nesting limit is reached, for which it takes about half as many tokens as there are levels. -/
theorem diagnostics_eq_nil_iff_program {depth : Nat} {program : String} {parsed : Parsed}
    (h : parseWithin depth program = .ok parsed) :
    (2 * (Token.ofProgram program).length + 1 < depth → parsed.WithinLimit) ∧
      (parsed.WithinLimit → (parsed.diagnostics = [] ↔
        ∃ ns, Grammar.Program ((Token.ofProgram program).map Token.unplaced) ns)) := by
  refine ⟨TokenStream.withinLimit_of_lt h, fun hl => ⟨Grammar.program_of_parsed h, ?_⟩⟩
  rintro ⟨ns, hn⟩
  exact (hn.parsed h hl).1

/-- What stands in brackets behind an operand is one index, so a list there is no program. -/
theorem not_program_list_behind_operand :
    ∃ parsed, parseWithin 15 "a [1, 2]" = .ok parsed ∧ parsed.WithinLimit ∧
      parsed.diagnostics ≠ [] ∧
      ¬ ∃ ns, Grammar.Program ((Token.ofProgram "a [1, 2]").map Token.unplaced) ns := by
  have hp : parseWithin 15 "a [1, 2]" = .ok _ := rfl
  obtain ⟨hlimit, hiff⟩ := diagnostics_eq_nil_iff_program hp
  have hl := hlimit (by decide)
  exact ⟨_, hp, hl, by decide, fun h => absurd ((hiff hl).mpr h) (by decide)⟩

/-! ### Printing -/

/-- The text of a well-formed program is read as that program without its places, and more than two
levels for every token are enough to read it. -/
theorem reads_printWithin {t : Node} (h : t.WellFormed .program) {limit : Nat} {text : String}
    (hp : t.printWithin limit = some text) (depth : Nat) :
    ∃ parsed, parseWithin depth text = .ok parsed ∧
      (2 * (Token.ofProgram text).length + 1 < depth → parsed.WithinLimit) ∧
      (parsed.WithinLimit → parsed.diagnostics = [] ∧ parsed.tree.unplaced = t.unplaced) := by
  have ht : t.print = text := by
    rw [Node.printWithin] at hp
    split at hp
    · exact Option.some.inj hp
    · cases hp
  obtain ⟨parsed, hread, hsame⟩ := reads_print h depth
  rw [ht] at hread
  exact ⟨parsed, hread, TokenStream.withinLimit_of_lt hread, hsame⟩

/-- The text of a well-formed program is read without a diagnostic as the program itself, and so the
tree that is read has the same text. -/
theorem parseWithin_print {t : Node} (h : t.WellFormed .program) {limit : Nat} {text : String}
    (hp : t.printWithin limit = some text) (depth : Nat) :
    ∃ parsed, parseWithin depth text = .ok parsed ∧
      (2 * (Token.ofProgram text).length + 1 < depth → parsed.WithinLimit) ∧
      (parsed.WithinLimit → parsed.diagnostics = [] ∧ parsed.tree.sameAs t = true ∧
        parsed.tree.printWithin limit = some text) := by
  obtain ⟨parsed, hread, hlimit, hsame⟩ := reads_printWithin h hp depth
  refine ⟨parsed, hread, hlimit, fun hl => ?_⟩
  obtain ⟨hd, htree⟩ := hsame hl
  exact ⟨hd, (Node.sameAs_iff _ _).mpr htree, (Node.printWithin_congr htree limit).trans hp⟩

/-- A call of a conditional, with an operation as an index, is written with the parentheses and
semicolons that it needs. -/
theorem parseWithin_print_conditional :
    ∃ t : Node, t.WellFormed .program ∧
      t.printWithin 9 = some "if (a) { (-b); c }(([1][(0 + 1)]))" ∧
      ∃ parsed, parseWithin 60 "if (a) { (-b); c }(([1][(0 + 1)]))" = .ok parsed ∧
        parsed.diagnostics = [] ∧ parsed.tree.sameAs t = true := by
  have hp : parseWithin 60 "if(a){-b;c}([1][0+1])" = .ok _ := rfl
  obtain ⟨t, hw, hprint⟩ : ∃ t : Node, t.WellFormed .program ∧
      t.printWithin 9 = some "if (a) { (-b); c }(([1][(0 + 1)]))" :=
    ⟨_, wellFormed_of_parseWithin hp, rfl⟩
  obtain ⟨parsed, hread, hlimit, hsame⟩ := parseWithin_print hw hprint 60
  obtain ⟨hd, htree, -⟩ := hsame (hlimit (by decide))
  exact ⟨t, hw, hprint, parsed, hread, hd, htree⟩

/-- The tree of a program is well-formed, whatever was left out of it, and its text is read without
a diagnostic as the tree itself. -/
theorem parseWithin_wellFormed {depth : Nat} {program : String} {parsed : Parsed}
    (h : parseWithin depth program = .ok parsed) :
    parsed.tree.WellFormed .program ∧
      ∀ limit text, parsed.tree.printWithin limit = some text → ∀ levels,
        ∃ again, parseWithin levels text = .ok again ∧
          (2 * (Token.ofProgram text).length + 1 < levels → again.WithinLimit) ∧
          (again.WithinLimit →
            again.diagnostics = [] ∧ again.tree.sameAs parsed.tree = true) := by
  have hw := wellFormed_of_parseWithin h
  refine ⟨hw, fun limit text hp levels => ?_⟩
  obtain ⟨again, hread, hlimit, hsame⟩ := reads_printWithin hw hp levels
  refine ⟨again, hread, hlimit, fun hl => ?_⟩
  obtain ⟨hd, htree⟩ := hsame hl
  exact ⟨hd, (Node.sameAs_iff _ _).mpr htree⟩

/-- What is left of a program with a part that cannot be read and with one that is nested too
deeply. -/
theorem parseWithin_wellFormed_incomplete :
    ∃ parsed, parseWithin 9 "a + !b; c(if (d) { e; * }); ((((((((1))))))))" = .ok parsed ∧
      ¬ parsed.WithinLimit ∧ parsed.tree.WellFormed .program ∧
      parsed.tree.printWithin 9 = some "(a + (!b)); c(if (d) { e })" ∧
      ∃ again, parseWithin 60 "(a + (!b)); c(if (d) { e })" = .ok again ∧
        again.diagnostics = [] ∧ again.tree.sameAs parsed.tree = true := by
  have hp : parseWithin 9 "a + !b; c(if (d) { e; * }); ((((((((1))))))))" = .ok _ := rfl
  obtain ⟨hw, hread⟩ := parseWithin_wellFormed hp
  obtain ⟨again, hagain, hlimit, hsame⟩ :=
    hread 9 "(a + (!b)); c(if (d) { e })" rfl 60
  exact ⟨_, hp, by decide, hw, rfl, again, hagain, hsame (hlimit (by decide))⟩

end ExprLang
