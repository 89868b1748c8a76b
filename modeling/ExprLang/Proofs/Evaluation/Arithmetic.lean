import ExprLang.Proofs.Evaluation.Limit
import ExprLang.Proofs.Evaluation.Word
import ExprLang.Proofs.Syntax.Nodes

/-!
# Arithmetic without bounds

An expression of integers, names of integers, changes of sign, sums, differences and products has a
value in integers without bounds. A run of the expression wraps at every node, and gives the word to
which this value is wrapped.
-/

namespace ExprLang

/-- What an operator does on integers without bounds, if it does the same on words. -/
def Kind.arithmetic? : Kind → Option (Int → Int → Int)
  | .plus => some (· + ·)
  | .minus => some (· - ·)
  | .star => some (· * ·)
  | _ => none

/-- The value of an expression in integers without bounds. An expression with anything else in it
than integers, names that are bound, changes of sign, sums, differences and products has none. -/
def Node.exactValue? (bound : String → Option Int) : Node → Option Int
  | .integer v _ => some v
  | .identifier name _ => bound name
  | .unary operator e _ =>
      if operator.kind = .minus then (e.exactValue? bound).map (- ·) else none
  | .binary l operator r _ => do
      let f ← operator.kind.arithmetic?
      let x ← l.exactValue? bound
      let y ← r.exactValue? bound
      return f x y
  | _ => none

/-- The integer that a name is bound to, if it is bound to one. -/
def Scopes.integerAt (s : Scopes) (scope : ScopeId) (name : String) : Option Int :=
  match s.lookup scope name with
  | .integer _ w => some w.toInt
  | _ => none

/-! ### Operators -/

namespace Value

/-- An operator on wrapped integers gives what it gives on the integers, wrapped. -/
theorem integerInfix_ofInt {operator : Token} {f : Int → Int → Int}
    (h : operator.kind.arithmetic? = some f) (x y : Int) :
    integerInfix (Int64.ofInt x) operator (Int64.ofInt y) = .ofInt (f x y) := by
  obtain ⟨text, kind, span⟩ := operator
  cases kind with
  | plus =>
      cases h
      simp only [integerInfix, OperatorResult.ofInt, Int64.ofInt_add, Int64.ofInt_toInt]
  | minus =>
      cases h
      simp only [integerInfix, OperatorResult.ofInt, Int64.ofInt_sub, Int64.ofInt_toInt]
  | star =>
      cases h
      simp only [integerInfix, OperatorResult.ofInt, Int64.ofInt_mul, Int64.ofInt_toInt]
  | _ => cases h

theorem applyPrefix_ofInt {operator : Token} (h : operator.kind = .minus) (identity : Nat)
    (x : Int) : applyPrefix operator (.integer identity (Int64.ofInt x)) = .ofInt (-x) := by
  obtain ⟨text, kind, span⟩ := operator
  cases h
  have hword : Int64.ofInt (-(Int64.ofInt x).toInt) = Int64.ofInt (-x) := by
    rw [Int64.ofInt_neg, Int64.ofInt_toInt, Int64.ofInt_neg]
  exact congrArg OperatorResult.number hword

end Value

/-! ### Runs -/

namespace Eval

variable {scope : ScopeId} {s : Scopes}

/-- A run gives the word of an integer if there are as many levels as its tree has, and is too deep
otherwise. Nothing is bound on the way. -/
def Computes (s : Scopes) (depth : Nat) (n : Node) (scope : ScopeId) (x : Int) : Prop :=
  ∀ m : Machine, m.scopes = s → Ends (visit depth n scope) m
    (fun v m' => n.height ≤ depth ∧ m'.scopes = s ∧
      ∃ identity, v = .integer identity (Int64.ofInt x))
    (fun fault _ => fault = .tooDeep ∧ depth < n.height)

theorem computes_identifier {name : String} {x : Int} (h : s.integerAt scope name = some x)
    (span : Span) (depth : Nat) : Computes s (depth + 1) (.identifier name span) scope x := by
  rintro m rfl
  unfold Scopes.integerAt at h
  split at h
  · next identity w hl =>
      cases h
      refine Ends.of_ok (lookUp_of_bound (by rw [hl]; rfl)) ⟨?_, rfl, identity, ?_⟩
      · simp [Node.height]
      · rw [hl, Int64.ofInt_toInt]
  · cases h

theorem Computes.unary {operator : Token} {e : Node} {x : Int} {depth : Nat}
    (ho : operator.kind = .minus) (he : Computes s depth e scope x) (span : Span) :
    Computes s (depth + 1) (.unary operator e span) scope (-x) := by
  intro m hm
  rw [visit, step, ends_visitThen]
  apply (he m hm).mono
  · rintro v m' ⟨hd, hs, identity, rfl⟩
    simp only [Value.isMarker, Bool.false_eq_true, if_false, Value.applyPrefix_ofInt ho,
      ends_conclude, OperatorResult.ofInt]
    exact ⟨Nat.succ_le_succ hd, hs, m'.identities, rfl⟩
  · rintro fault m' ⟨hf, hd⟩
    exact ⟨hf, Nat.succ_lt_succ hd⟩

theorem Computes.binary {l r : Node} {operator : Token} {f : Int → Int → Int} {x y : Int}
    {depth : Nat} (ho : operator.kind.arithmetic? = some f) (hl : Computes s depth l scope x)
    (hr : Computes s depth r scope y) (span : Span) :
    Computes s (depth + 1) (.binary l operator r span) scope (f x y) := by
  intro m hm
  rw [visit, step, ends_visitThen]
  apply (hl m hm).mono
  · rintro v m' ⟨hdl, hs, identity, rfl⟩
    simp only [Value.isMarker, Bool.false_eq_true, if_false, ends_visitThen]
    apply (hr m' hs).mono
    · rintro w m'' ⟨hdr, hs', identity', rfl⟩
      simp only [Bool.false_eq_true, if_false, Value.applyInfix, Value.integerInfix_ofInt ho,
        ends_conclude, OperatorResult.ofInt]
      exact ⟨Nat.succ_le_succ (Nat.max_le.mpr ⟨hdl, hdr⟩), hs', m''.identities, rfl⟩
    · rintro fault m'' ⟨hf, hd⟩
      exact ⟨hf, Nat.succ_lt_succ (Nat.lt_of_lt_of_le hd (Nat.le_max_right _ _))⟩
  · rintro fault m' ⟨hf, hd⟩
    exact ⟨hf, Nat.succ_lt_succ (Nat.lt_of_lt_of_le hd (Nat.le_max_left _ _))⟩

/-- Wrapping at every node is wrapping once, at the end. -/
theorem computes_exact {n : Node} {x : Int} (h : n.exactValue? (s.integerAt scope) = some x)
    (depth : Nat) : Computes s depth n scope x := by
  induction depth generalizing n x with
  | zero => exact fun m _ => ⟨rfl, n.height_pos⟩
  | succ depth ih =>
      unfold Node.exactValue? at h
      split at h
      · next v span =>
          cases h
          exact fun m hm => ⟨by simp [Node.height], hm, m.identities, rfl⟩
      · exact computes_identifier h _ depth
      · next operator e span =>
          split at h
          · next ho =>
              obtain ⟨y, hy, rfl⟩ := Option.map_eq_some_iff.mp h
              exact (ih hy).unary ho span
          · cases h
      · next l operator r span =>
          simp only [Option.bind_eq_bind, Option.bind_eq_some_iff, Option.pure_def,
            Option.some.injEq] at h
          obtain ⟨f, ho, a, ha, b, hb, rfl⟩ := h
          exact (ih ha).binary ho (ih hb) span
      · cases h

/-- An expression with a value in integers without bounds gives the one word that differs from this
value by a multiple of `2 ^ 64`, if there are as many levels as its tree has. With fewer levels it
gives the error of the depth. -/
theorem evaluateWithin_exact {n : Node} {scope : ScopeId} {m : Machine} {x : Int}
    (h : n.exactValue? (m.scopes.integerAt scope) = some x) (depth : Nat) :
    (n.height ≤ depth → ∃ identity w m',
      evaluateWithin depth n scope m = .ok (.integer identity w) m' ∧
        ∀ y, w.toInt = y ↔ (-2 ^ 63 ≤ y ∧ y ≤ 2 ^ 63 - 1) ∧ y % 2 ^ 64 = x % 2 ^ 64) ∧
      (depth < n.height → ∃ m',
        evaluateWithin depth n scope m = .ok (.error .nestedTooDeep) m') := by
  obtain ⟨v, m', hrun, ⟨hd, -, identity, rfl⟩ | ⟨rfl, hd⟩⟩ :=
    exists_value_of_ends (computes_exact h depth m rfl)
  · constructor
    · intro _
      exact ⟨identity, Int64.ofInt x, m', hrun, Word.toInt_ofInt_eq_iff x⟩
    · intro hlt
      exact absurd hd (Nat.not_le.mpr hlt)
  · constructor
    · intro hle
      exact absurd hle (Nat.not_le.mpr hd)
    · intro _
      exact ⟨m', hrun⟩

/-- The greatest word times itself, with the sign changed, less one: the exact value is far below
the least word, and is wrapped to minus two. The tree has four levels. -/
theorem evaluateWithin_exact_square :
    ∃ n m, n = Node.binary
        (.unary Kind.minus.token
          (.binary (.identifier "n" Span.nowhere) Kind.star.token (.identifier "n" Span.nowhere)
            Span.nowhere) Span.nowhere)
        Kind.minus.token (.integer 1 Span.nowhere) Span.nowhere ∧
      m = Machine.initial.binding 0 "n" (.integer 0 Int64.maxValue) ∧
      n.exactValue? (m.scopes.integerAt 0) = some (-(2 ^ 63 - 1) ^ 2 - 1) ∧
      (∃ identity w m', evaluateWithin 4 n 0 m = .ok (.integer identity w) m' ∧ w.toInt = -2) ∧
      ∃ m', evaluateWithin 3 n 0 m = .ok (.error .nestedTooDeep) m' := by
  obtain ⟨n, m, hn, hm, hx, hh⟩ : ∃ n m, n = Node.binary
        (.unary Kind.minus.token
          (.binary (.identifier "n" Span.nowhere) Kind.star.token (.identifier "n" Span.nowhere)
            Span.nowhere) Span.nowhere)
        Kind.minus.token (.integer 1 Span.nowhere) Span.nowhere ∧
      m = Machine.initial.binding 0 "n" (.integer 0 Int64.maxValue) ∧
      n.exactValue? (m.scopes.integerAt 0) = some (-(2 ^ 63 - 1) ^ 2 - 1) ∧ n.height = 4 :=
    ⟨_, _, rfl, rfl, rfl, rfl⟩
  obtain ⟨identity, w, m', hrun, hw⟩ := (evaluateWithin_exact hx 4).1 (Nat.le_of_eq hh)
  exact ⟨n, m, hn, hm, hx, ⟨identity, w, m', hrun, (hw (-2)).mpr (by decide)⟩,
    (evaluateWithin_exact hx 3).2 (Nat.lt_of_lt_of_eq (by decide) hh.symm)⟩

end Eval

end ExprLang
