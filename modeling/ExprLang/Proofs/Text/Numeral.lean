import ExprLang.Text.Numeral

/-!
# Runs of digits as integers

A run of ASCII digits is read as the number that it stands for in decimal notation, unless there
are too many of them, and a number that is not negative is written as such a run.
-/

namespace ExprLang.Text

/-- Whether a text is a run of ASCII digits. -/
def isNumeral (text : String) : Bool :=
  !text.toList.isEmpty && text.toList.all Char.isDigit

/-- The number that a run of ASCII digits stands for. -/
def decimal (text : String) : Nat :=
  Nat.ofDigitChars 10 text.toList 0

theorem digit_bounds {c : Char} (h : c.isDigit = true) : 48 ≤ c.toNat ∧ c.toNat ≤ 57 := by
  simp only [Char.isDigit, Bool.and_eq_true, decide_eq_true_eq, ge_iff_le] at h
  exact h

theorem digitValue_of_isDigit {c : Char} (h : c.isDigit = true) :
    digitValue? c = some (c.toNat - 48) := by
  have hc := digit_bounds h
  have hb : (decide (0x30 ≤ c.toNat) && decide (c.toNat < 0x30 + 10)) = true := by
    simp only [Bool.and_eq_true, decide_eq_true_eq]
    omega
  simp [digitValue?, digitZeros, hb]

/-- A run of digits is read to its end. -/
theorem digitRun_of_digits {text : List Char} (h : ∀ c ∈ text, c.isDigit = true) :
    digitRun text = some (text.map fun c => c.toNat - 48, []) := by
  induction text with
  | nil => rfl
  | cons c rest ih =>
      have hc : c.isDigit = true := h c List.mem_cons_self
      have hr : ∀ d ∈ rest, d.isDigit = true := fun d hd => h d (List.mem_cons_of_mem c hd)
      have hu : ∀ tail, rest ≠ '_' :: tail := by
        rintro tail rfl
        exact absurd (hr '_' List.mem_cons_self) (by decide)
      rw [digitRun]
      simp only [digitValue_of_isDigit hc]
      split
      · exact (hu _ rfl).elim
      · exact (hu _ rfl).elim
      · simp [ih hr]

theorem ofDigits_map (text : List Char) :
    ofDigits (text.map fun c => c.toNat - 48) = Nat.ofDigitChars 10 text 0 := by
  rw [ofDigits, List.foldl_map, Nat.ofDigitChars_eq_foldl]
  rfl

theorem not_isBlank_of_isDigit {c : Char} (h : c.isDigit = true) : isBlank c = false := by
  have hc := digit_bounds h
  simp [isBlank]
  omega

theorem not_isNumeralBlank_of_isDigit {c : Char} (h : c.isDigit = true) :
    isNumeralBlank c = false := by
  simp [isNumeralBlank, not_isBlank_of_isDigit h]

theorem trim_eq_self {drop : Char → Bool} {text : List Char} (h : ∀ c ∈ text, drop c = false) :
    trim drop text = text := by
  have hdrop : ∀ cs : List Char, (∀ c ∈ cs, drop c = false) → cs.dropWhile drop = cs := by
    intro cs hcs
    cases cs with
    | nil => rfl
    | cons c cs => simp [hcs c List.mem_cons_self]
  have hrev : ∀ c ∈ text.reverse, drop c = false := fun c hc => h c (List.mem_reverse.mp hc)
  rw [trim, trimEnd, trimStart, hdrop _ h, hdrop _ hrev, List.reverse_reverse]

/-- A run of digits has no blanks at its ends. -/
theorem strip_of_isNumeral {text : String} (h : isNumeral text = true) : strip text = text := by
  have hd : ∀ c ∈ text.toList, c.isDigit = true :=
    List.all_eq_true.mp (Bool.and_eq_true_iff.mp h).2
  rw [strip, trim_eq_self fun c hc => not_isBlank_of_isDigit (hd c hc), String.ofList_toList]

/-- A run of digits stands for its decimal value, if it is not too long. -/
theorem readInt_of_isNumeral {text : String} (h : isNumeral text = true) :
    readInt text =
      if maxDigits < text.toList.length then .error (.tooLong text.toList.length)
      else .ok (decimal text : Int) := by
  obtain ⟨hne, hall⟩ := Bool.and_eq_true_iff.mp h
  have hd : ∀ c ∈ text.toList, c.isDigit = true := List.all_eq_true.mp hall
  obtain ⟨c, rest, ht⟩ : ∃ c rest, text.toList = c :: rest := by
    cases ht : text.toList with
    | nil => simp [ht] at hne
    | cons c rest => exact ⟨c, rest, rfl⟩
  have hc : c.isDigit = true := hd c (by simp [ht])
  have htrim : trimStart isNumeralBlank text.toList = text.toList := by
    simp [trimStart, ht, not_isNumeralBlank_of_isDigit hc]
  have hsign : splitSign text.toList = (false, text.toList) := by
    have hm : c ≠ '-' := by rintro rfl; exact absurd hc (by decide)
    have hp : c ≠ '+' := by rintro rfl; exact absurd hc (by decide)
    rw [ht]
    simp [splitSign, hm, hp]
  simp only [readInt, htrim, hsign, digitRun_of_digits hd, ofDigits_map, List.length_map]
  simp [ht, decimal]

/-- Where a run of digits is read, its decimal value is what is read. -/
theorem eq_decimal_of_readInt {text : String} {value : Int} (h : isNumeral text = true)
    (hv : readInt text = .ok value) : value = decimal text := by
  rw [readInt_of_isNumeral h] at hv
  split at hv
  · cases hv
  · exact (Except.ok.inj hv).symm

/-- A run of digits that cannot be read is too long. -/
theorem eq_tooLong_of_readInt {text : String} {reason : Unreadable} (h : isNumeral text = true)
    (hr : readInt text = .error reason) :
    maxDigits < text.toList.length ∧ reason = .tooLong text.toList.length := by
  rw [readInt_of_isNumeral h] at hr
  split at hr
  · next hl => exact ⟨hl, (Except.error.inj hr).symm⟩
  · cases hr

/-- A run of digits can be read exactly if it is not too long. -/
theorem exists_readInt_iff {text : String} (h : isNumeral text = true) :
    (∃ value, readInt text = .ok value) ↔ text.toList.length ≤ maxDigits := by
  rw [readInt_of_isNumeral h]
  split
  · next hl => simpa using hl
  · next hl => simpa using hl

/-- The text of a number is a run of digits. -/
theorem isNumeral_repr (n : Nat) : isNumeral n.repr = true := by
  simp only [isNumeral, Nat.toList_repr, Bool.and_eq_true, List.all_eq_true]
  refine ⟨?_, fun c hc => Nat.isDigit_of_mem_toDigits (by decide) (by decide) hc⟩
  simp [Nat.toDigits_ne_nil]

/-- The text of a number stands for it. -/
theorem decimal_repr (n : Nat) : decimal n.repr = n := by
  rw [decimal, Nat.toList_repr, Nat.ofDigitChars_ten_toDigits]

/-- A number of 64 bits is not too long to be read. -/
theorem readInt_repr {n : Nat} (h : n ≤ 9223372036854775807) :
    readInt n.repr = .ok (n : Int) := by
  have hl : n.repr.toList.length ≤ maxDigits := by
    rw [Nat.toList_repr, Nat.length_toDigits_le_iff (by decide) (by decide)]
    calc
      n < 10 ^ 19 := Nat.lt_of_le_of_lt h (by decide)
      _ ≤ 10 ^ maxDigits := Nat.pow_le_pow_right (by decide) (by decide)
  rw [readInt_of_isNumeral (isNumeral_repr n), if_neg (Nat.not_lt.mpr hl), decimal_repr]

end ExprLang.Text
