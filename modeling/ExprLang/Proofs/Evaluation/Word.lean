import ExprLang.Evaluation.Operator
import ExprLang.Proofs.Syntax.WellFormed
import Mathlib.Algebra.Group.Int.Defs

/-!
# Integers as machine words

An integer of the language is a word of 64 bits, and an operator on integers is defined by
arithmetic without bounds whose result is wrapped. It gives what a machine gives that works on the
bits of the two words and reads them in two's complement.
-/

namespace ExprLang

namespace Word

/-! ### Wrapping -/

/-- Wrapping goes to the remainder modulo `2 ^ 64`, counted from the least word on. -/
theorem toInt_ofInt (n : Int) : (Int64.ofInt n).toInt = (n - -2 ^ 63) % 2 ^ 64 + -2 ^ 63 := by
  have hsize : Int64.size = 18446744073709551616 := rfl
  rw [Int64.toInt_ofInt, Int.bmod_def, hsize]
  omega

/-- An integer is wrapped to the one word that differs from it by a multiple of `2 ^ 64`. -/
theorem toInt_ofInt_eq_iff (n w : Int) :
    (Int64.ofInt n).toInt = w ↔ (-2 ^ 63 ≤ w ∧ w ≤ 2 ^ 63 - 1) ∧ w % 2 ^ 64 = n % 2 ^ 64 := by
  rw [toInt_ofInt]
  omega

theorem toInt_eq_zero_iff (a : Int64) : a.toInt = 0 ↔ a = 0 := by
  rw [← Int64.toInt_inj, Int64.toInt_zero]

/-! Arithmetic without bounds on words, wrapped, is arithmetic of words. -/

theorem ofInt_add_toInt (a b : Int64) : Int64.ofInt (a.toInt + b.toInt) = a + b := by
  rw [Int64.ofInt_add, Int64.ofInt_toInt, Int64.ofInt_toInt]

theorem ofInt_sub_toInt (a b : Int64) : Int64.ofInt (a.toInt - b.toInt) = a - b := by
  rw [Int64.ofInt_sub, Int64.ofInt_toInt, Int64.ofInt_toInt]

theorem ofInt_mul_toInt (a b : Int64) : Int64.ofInt (a.toInt * b.toInt) = a * b := by
  rw [Int64.ofInt_mul, Int64.ofInt_toInt, Int64.ofInt_toInt]

/-- The quotient of magnitudes with a sign is the quotient toward zero. -/
theorem quotient_eq_tdiv (x y : Int) : Value.quotient x y = x.tdiv y := by
  have hnonneg : ∀ m : Nat, ¬ Int.ofNat m < 0 := fun m => Int.not_lt.mpr (Int.natCast_nonneg m)
  have hneg : ∀ m : Nat, Int.negSucc m < 0 := Int.negSucc_lt_zero
  cases x with
  | ofNat m =>
      cases y with
      | ofNat n =>
          rw [Value.quotient, if_pos (iff_of_false (hnonneg m) (hnonneg n))]
          rfl
      | negSucc n =>
          rw [Value.quotient, if_neg (fun h => hnonneg m (h.mpr (hneg n)))]
          rfl
  | negSucc m =>
      cases y with
      | ofNat n =>
          rw [Value.quotient, if_neg (fun h => hnonneg n (h.mp (hneg m)))]
          rfl
      | negSucc n =>
          rw [Value.quotient, if_pos (iff_of_true (hneg m) (hneg n))]
          rfl

theorem ofInt_quotient_toInt (a b : Int64) :
    Int64.ofInt (Value.quotient a.toInt b.toInt) = a / b := by
  rw [quotient_eq_tdiv, ← Int64.toInt_inj, Int64.toInt_ofInt]
  exact (Int64.toInt_div a b).symm

/-! ### A machine -/

/-- What a machine gives for an operator. -/
inductive Answer where
  | word (bits : BitVec 64)
  | truth (holds : Bool)
deriving DecidableEq, Repr

/-- The operators of a machine on words of 64 bits, which it reads in two's complement. It has no
answer for a division by zero and for what is no operator. -/
def operate (kind : Kind) (a b : BitVec 64) : Option Answer :=
  match kind with
  | .plus => some (.word (a + b))
  | .minus => some (.word (a - b))
  | .star => some (.word (a * b))
  | .slash => if b = 0 then none else some (.word (a.sdiv b))
  | .less => some (.truth (a.slt b))
  | .greater => some (.truth (b.slt a))
  | .atMost => some (.truth (a.sle b))
  | .atLeast => some (.truth (b.sle a))
  | .equal => some (.truth (a == b))
  | .notEqual => some (.truth (a != b))
  | _ => none

/-- The answer that the result of an operator stands for. -/
def answer? : OperatorResult → Option Answer
  | .number w => some (.word w.toBitVec)
  | .done (.boolean b) => some (.truth b)
  | .done _ | .failed _ | .missing => none

/-- A quotient that is truncated toward zero: its magnitude is that of the exact quotient without
the fraction, and the remainder is less than the divisor and has the sign of the dividend. The least
word divided by minus one is too large for a word and wraps to the least word. -/
structure Truncated (a b q : Int64) : Prop where
  magnitude : ¬ (a = Int64.minValue ∧ b = -1) → q.toInt.natAbs = a.toInt.natAbs / b.toInt.natAbs
  dividend : ¬ (a = Int64.minValue ∧ b = -1) → a.toInt = b.toInt * q.toInt + (a - b * q).toInt
  remainder_lt : (a - b * q).toInt.natAbs < b.toInt.natAbs
  remainder_sign : (a - b * q).toInt = 0 ∨ ((a - b * q).toInt < 0 ↔ a.toInt < 0)
  least : a = Int64.minValue → b = -1 → q = Int64.minValue

theorem toInt_div_of_ne {a b : Int64} (h : ¬ (a = Int64.minValue ∧ b = -1)) :
    (a / b).toInt = a.toInt.tdiv b.toInt := by
  by_cases ha : a = Int64.minValue
  · exact Int64.toInt_div_of_ne_right a b fun hb => h ⟨ha, hb⟩
  · exact Int64.toInt_div_of_ne_left a b ha

/-- Whatever is wrapped on the way, the remainder of words is the exact one. -/
theorem toInt_remainder (a b : Int64) : (a - b * (a / b)).toInt = a.toInt.tmod b.toInt := by
  calc
    (a - b * (a / b)).toInt = (a.toInt -
        (b.toInt * (a.toInt.tdiv b.toInt).bmod (2 ^ 64)).bmod (2 ^ 64)).bmod (2 ^ 64) := by
      rw [Int64.toInt_sub, Int64.toInt_mul, Int64.toInt_div]
    _ = (a.toInt - b.toInt * a.toInt.tdiv b.toInt).bmod (2 ^ 64) := by
      rw [Int.mul_bmod_bmod, Int.sub_bmod_bmod]
    _ = (a % b).toInt.bmod (2 ^ 64) := by rw [← Int.tmod_def, Int64.toInt_mod]
    _ = a.toInt.tmod b.toInt := (Int64.toInt_bmod (a % b)).trans (Int64.toInt_mod a b)

theorem truncated_div {a b : Int64} (h : b ≠ 0) : Truncated a b (a / b) := by
  have hb : b.toInt ≠ 0 := fun hz => h ((toInt_eq_zero_iff b).mp hz)
  constructor
  · intro hne
    rw [toInt_div_of_ne hne]
    exact Int.natAbs_tdiv _ _
  · intro hne
    rw [toInt_div_of_ne hne, toInt_remainder, Int.add_comm]
    exact (Int.tmod_add_mul_tdiv _ _).symm
  · rw [toInt_remainder, Int.natAbs_tmod]
    exact Nat.mod_lt _ (Int.natAbs_pos.mpr hb)
  · rw [toInt_remainder]
    have hsign := Int.sign_tmod a.toInt b.toInt
    split at hsign
    · exact Or.inl (Int.sign_eq_zero_iff_zero.mp hsign)
    · right
      rw [← Int.sign_eq_neg_one_iff_neg, hsign, Int.sign_eq_neg_one_iff_neg]
  · rintro rfl rfl
    decide

end Word

namespace Value

open Word (Truncated answer? operate)

/-- Words are equal exactly if their bits are. -/
theorem decide_toInt_eq (a b : Int64) :
    decide (a.toInt = b.toInt) = (a.toBitVec == b.toBitVec) := by
  rw [Bool.eq_iff_iff, decide_eq_true_iff, beq_iff_eq]
  exact BitVec.toInt_inj

theorem answer?_integerInfix (a b : Int64) (operator : Token) :
    answer? (integerInfix a operator b) = operate operator.kind a.toBitVec b.toBitVec := by
  obtain ⟨text, kind, span⟩ := operator
  cases kind with
  | plus => simp only [integerInfix, OperatorResult.ofInt, Word.ofInt_add_toInt]; rfl
  | minus => simp only [integerInfix, OperatorResult.ofInt, Word.ofInt_sub_toInt]; rfl
  | star => simp only [integerInfix, OperatorResult.ofInt, Word.ofInt_mul_toInt]; rfl
  | slash =>
      have hz : b.toInt = 0 ↔ b.toBitVec = 0 := by
        rw [← BitVec.toInt_inj]
        rfl
      simp only [integerInfix, OperatorResult.ofInt, Word.ofInt_quotient_toInt, operate, hz]
      split <;> rfl
  | equal => simp only [integerInfix, decide_toInt_eq]; rfl
  | notEqual =>
      simp only [integerInfix, ne_eq, decide_not, decide_toInt_eq]
      rfl
  | _ => rfl

/-- A division by zero and what is no operator fail, and nothing else does. -/
theorem integerInfix_failed_iff (a b : Int64) (operator : Token) :
    (∃ failure, integerInfix a operator b = .failed failure) ↔
      operator.kind = .slash ∧ b = 0 ∨ operator.kind.isBinary = false := by
  obtain ⟨text, kind, span⟩ := operator
  cases kind with
  | slash =>
      simp only [integerInfix, Word.toInt_eq_zero_iff]
      split
      · next h => simp [h]
      · next h => simp [h, OperatorResult.ofInt, Kind.isBinary]
  | _ => simp [integerInfix, OperatorResult.ofInt, Kind.isBinary]

/-- The operator between two integers gives what a machine gives on their bits. It fails exactly if
it is a division by zero or no operator, and a quotient is truncated toward zero. -/
theorem integerInfix_operates (a b : Int64) (operator : Token) :
    answer? (integerInfix a operator b) = operate operator.kind a.toBitVec b.toBitVec ∧
      ((∃ failure, integerInfix a operator b = .failed failure) ↔
        operator.kind = .slash ∧ b = 0 ∨ operator.kind.isBinary = false) ∧
      (operator.kind = .slash → b ≠ 0 →
        ∃ q, integerInfix a operator b = .number q ∧ Truncated a b q) := by
  refine ⟨answer?_integerInfix a b operator, integerInfix_failed_iff a b operator, ?_⟩
  intro hk hb
  refine ⟨a / b, ?_, Word.truncated_div hb⟩
  simp only [integerInfix, hk, Word.toInt_eq_zero_iff, if_neg hb, OperatorResult.ofInt,
    Word.ofInt_quotient_toInt]

end Value

end ExprLang
