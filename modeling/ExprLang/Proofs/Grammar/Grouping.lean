import ExprLang.Proofs.Syntax.WellFormed

/-!
# Operators between operands

A chain is an operand and a list of operators with an operand behind each. Its tree is found by
splitting the chain at the last one of the operators that bind least, and so on in both parts. Every
chain has exactly one such tree.

## Implementation notes

A parse does not look for the weakest operator. It takes up operators from left to right, so the
lemma that it needs, `Grouped.fold`, says how the tree grows behind a first operator that is taken
up together with all that binds tighter.
-/

namespace ExprLang

namespace Token

/-- How tightly a token binds. -/
def rank (t : Token) : Nat :=
  t.kind.precedence.rank

end Token

namespace Grammar

/-- The tree of a chain: the last one of the operators that bind least is at its root. -/
inductive Grouped (rank : Token → Nat) : Node → List (Token × Node) → Node → Prop where
  | single (first : Node) : Grouped rank first [] first
  | split {first left operand right : Node} {operator : Token} {before after : List (Token × Node)}
      (hb : ∀ x ∈ before, rank operator ≤ rank x.1) (ha : ∀ x ∈ after, rank operator < rank x.1)
      (hl : Grouped rank first before left) (hr : Grouped rank operand after right) :
      Grouped rank first (before ++ (operator, operand) :: after)
        (.binary left operator right Span.nowhere)

variable {rank : Token → Nat}

/-- Two splits of a list at an entry that is weakest, and weaker than all entries behind it, are the
same. -/
theorem split_unique {before before' after after' : List (Token × Node)} {x x' : Token × Node}
    (h : before ++ x :: after = before' ++ x' :: after')
    (hb : ∀ y ∈ before, rank x.1 ≤ rank y.1) (ha : ∀ y ∈ after, rank x.1 < rank y.1)
    (hb' : ∀ y ∈ before', rank x'.1 ≤ rank y.1) (ha' : ∀ y ∈ after', rank x'.1 < rank y.1) :
    before = before' ∧ x = x' ∧ after = after' := by
  rcases List.append_eq_append_iff.mp h with ⟨mid, hm, hx⟩ | ⟨mid, hm, hx⟩
  · cases mid with
    | nil => simp_all
    | cons y mid =>
        obtain ⟨rfl, rfl⟩ := List.cons.inj hx
        have h₁ : rank x'.1 ≤ rank x.1 := hb' x (by simp [hm])
        have h₂ : rank x.1 < rank x'.1 := ha x' (by simp)
        omega
  · cases mid with
    | nil => simp_all
    | cons y mid =>
        obtain ⟨rfl, rfl⟩ := List.cons.inj hx
        have h₁ : rank x.1 ≤ rank x'.1 := hb x' (by simp [hm])
        have h₂ : rank x'.1 < rank x.1 := ha' x (by simp)
        omega

/-- Some operator of a chain is the last one of those that bind least. -/
theorem exists_weakest {rest : List (Token × Node)} (h : rest ≠ []) :
    ∃ before x after, rest = before ++ x :: after ∧
      (∀ y ∈ before, rank x.1 ≤ rank y.1) ∧ ∀ y ∈ after, rank x.1 < rank y.1 := by
  induction rest with
  | nil => exact absurd rfl h
  | cons y rest ih =>
      by_cases hr : rest = []
      · exact ⟨[], y, [], by simp [hr], by simp, by simp⟩
      · obtain ⟨before, x, after, rfl, hb, ha⟩ := ih hr
        by_cases hy : rank y.1 < rank x.1
        · refine ⟨[], y, before ++ x :: after, rfl, by simp, fun z hz => ?_⟩
          rcases List.mem_append.mp hz with hz | hz
          · exact Nat.lt_of_lt_of_le hy (hb z hz)
          · rcases List.mem_cons.mp hz with rfl | hz
            · exact hy
            · exact Nat.lt_trans hy (ha z hz)
        · refine ⟨y :: before, x, after, rfl, ?_, ha⟩
          exact List.forall_mem_cons.mpr ⟨Nat.le_of_not_lt hy, hb⟩

namespace Grouped

/-- The tree of a lone operand is that operand. -/
theorem eq_of_nil {first e : Node} (h : Grouped rank first [] e) : e = first := by
  generalize hr : ([] : List (Token × Node)) = rest at h
  cases h with
  | single => rfl
  | split => simp at hr

/-- The tree of one operator between two operands. -/
theorem pair (left right : Node) (operator : Token) :
    Grouped rank left [(operator, right)] (.binary left operator right Span.nowhere) :=
  @split rank left left right right operator [] [] (by simp) (by simp) (.single left)
    (.single right)

/-- A chain has one tree only. -/
theorem unique {first e e' : Node} {rest : List (Token × Node)} (h : Grouped rank first rest e)
    (h' : Grouped rank first rest e') : e = e' := by
  induction h generalizing e' with
  | single first => exact h'.eq_of_nil.symm
  | @split first left operand right operator before after hb ha hl hr ihl ihr =>
      generalize hx : before ++ (operator, operand) :: after = rest at h'
      cases h' with
      | single => simp at hx
      | split hb' ha' hl' hr' =>
          obtain ⟨rfl, ho, rfl⟩ := split_unique hx hb ha hb' ha'
          obtain ⟨rfl, rfl⟩ := Prod.mk.inj ho
          rw [ihl hl', ihr hr']

/-- A first operator that is taken up with all that binds tighter behind it is the first operand of
the rest of the chain, if the rest goes on with an operator that binds no tighter. -/
theorem fold {first operand right e : Node} {operator : Token} {tight rest : List (Token × Node)}
    (hr : Grouped rank operand tight right) (ht : ∀ x ∈ tight, rank operator < rank x.1)
    (hrest : ∀ x ∈ rest.head?, rank x.1 ≤ rank operator)
    (h : Grouped rank (.binary first operator right Span.nowhere) rest e) :
    Grouped rank first ((operator, operand) :: tight ++ rest) e := by
  generalize hf : (Node.binary first operator right Span.nowhere) = folded at h
  induction h with
  | single folded =>
      subst hf
      simpa using Grouped.split (by simp) ht (.single first) hr
  | @split folded left last right' weakest before after hb ha hl hr' ihl _ =>
      -- The weakest operator of the rest is no stronger than the operator that was folded.
      have hw : rank weakest ≤ rank operator := by
        cases before with
        | nil => exact hrest (weakest, last) (by simp)
        | cons x before =>
            have hx : rank x.1 ≤ rank operator := hrest x (by simp)
            have hwx : rank weakest ≤ rank x.1 := hb x (by simp)
            omega
      have hleft : Grouped rank first ((operator, operand) :: tight ++ before) left := by
        refine ihl ?_ hf
        intro x hx
        apply hrest x
        cases before with
        | nil => simp at hx
        | cons y before => simpa using hx
      have hall : ∀ x ∈ (operator, operand) :: tight ++ before, rank weakest ≤ rank x.1 := by
        intro x hx
        rcases List.mem_append.mp hx with hx | hx
        · rcases List.mem_cons.mp hx with rfl | hx
          · exact hw
          · exact Nat.le_of_lt (Nat.lt_of_le_of_lt hw (ht x hx))
        · exact hb x hx
      simpa using Grouped.split hall ha hleft hr'

/-- Only the order of the ranks matters. -/
theorem congr {rank' : Token → Nat} {first e : Node} {rest : List (Token × Node)}
    (h : Grouped rank first rest e)
    (hrank : ∀ x ∈ rest, ∀ y ∈ rest, rank x.1 < rank y.1 ↔ rank' x.1 < rank' y.1) :
    Grouped rank' first rest e := by
  induction h with
  | single first => exact .single first
  | @split first left operand right operator before after hb ha hl hr ihl ihr =>
      have hm : (operator, operand) ∈ before ++ (operator, operand) :: after := by simp
      refine .split (fun x hx => ?_) (fun x hx => ?_) (ihl ?_) (ihr ?_)
      · have hlt : rank x.1 < rank operator ↔ rank' x.1 < rank' operator :=
          hrank x (List.mem_append_left _ hx) _ hm
        have hle := hb x hx
        omega
      · exact (hrank _ hm x (by simp [hx])).mp (ha x hx)
      · exact fun x hx y hy => hrank x (by simp [hx]) y (by simp [hy])
      · exact fun x hx y hy => hrank x (by simp [hx]) y (by simp [hy])

/-- The tree without places is the tree of the chain without places. -/
theorem unplaced {first e : Node} {rest : List (Token × Node)} (h : Grouped rank first rest e)
    (hrank : ∀ t, rank t.unplaced = rank t) :
    Grouped rank first.unplaced (rest.map fun x => (x.1.unplaced, x.2.unplaced)) e.unplaced := by
  induction h with
  | single first => exact .single first.unplaced
  | @split first left operand right operator before after hb ha hl hr ihl ihr =>
      rw [List.map_append, List.map_cons, Node.unplaced]
      refine .split ?_ ?_ ihl ihr
      · simp only [List.forall_mem_map, hrank]
        exact hb
      · simp only [List.forall_mem_map, hrank]
        exact ha

/-- Every chain has a tree. -/
theorem exists_tree (first : Node) (rest : List (Token × Node)) :
    ∃ e, Grouped rank first rest e := by
  induction hn : rest.length using Nat.strongRecOn generalizing first rest with
  | _ n ih =>
      by_cases hr : rest = []
      · exact ⟨first, hr ▸ .single first⟩
      · obtain ⟨before, x, after, rfl, hb, ha⟩ := exists_weakest hr
        obtain ⟨left, hl⟩ := ih before.length (by simp at hn; omega) first before rfl
        obtain ⟨right, hr⟩ := ih after.length (by simp at hn; omega) x.2 after rfl
        exact ⟨_, .split hb ha hl hr⟩

end Grouped

end Grammar

end ExprLang
