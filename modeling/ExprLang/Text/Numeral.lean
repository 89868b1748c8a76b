import ExprLang.Text.Blank
import ExprLang.Text.Quoted

/-!
# Integers in decimal notation

The text of an integer may have blanks around it, a sign in front and single underscores between
its digits, which may come from any script. A text of too many digits is refused before anything
after the digits is looked at.

## Implementation notes

`digitZeros` lists the zero of every script; the nine digits after it follow in order.
-/

namespace ExprLang.Text

/-- The code points of the zeros of all scripts, in increasing order. -/
def digitZeros : List Nat :=
  [0x30, 0x660, 0x6f0, 0x7c0, 0x966, 0x9e6, 0xa66, 0xae6, 0xb66, 0xbe6, 0xc66, 0xce6, 0xd66,
    0xde6, 0xe50, 0xed0, 0xf20, 0x1040, 0x1090, 0x17e0, 0x1810, 0x1946, 0x19d0, 0x1a80, 0x1a90,
    0x1b50, 0x1bb0, 0x1c40, 0x1c50, 0xa620, 0xa8d0, 0xa900, 0xa9d0, 0xa9f0, 0xaa50, 0xabf0,
    0xff10, 0x104a0, 0x10d30, 0x11066, 0x110f0, 0x11136, 0x111d0, 0x112f0, 0x11450, 0x114d0,
    0x11650, 0x116c0, 0x11730, 0x118e0, 0x11950, 0x11c50, 0x11d50, 0x11da0, 0x16a60, 0x16ac0,
    0x16b50, 0x1d7ce, 0x1d7d8, 0x1d7e2, 0x1d7ec, 0x1d7f6, 0x1e140, 0x1e2f0, 0x1e950, 0x1fbf0]

/-- The value of a decimal digit of any script. -/
def digitValue? (c : Char) : Option Nat :=
  (digitZeros.find? fun start => start ≤ c.toNat && c.toNat < start + 10).map (c.toNat - ·)

/-- White space around an integer: the blanks without the four separators of ASCII. -/
def isNumeralBlank (c : Char) : Bool :=
  isBlank c && !(0x1c ≤ c.toNat && c.toNat ≤ 0x1f)

/-- The most digits that an integer may be written with. -/
def maxDigits : Nat := 4300

/-- Why a text is not an integer. -/
inductive Unreadable where
  /-- There are more digits than allowed. -/
  | tooLong (digits : Nat)
  /-- The text is not of the form of an integer. -/
  | malformed (text : String)
deriving DecidableEq, Repr

/-- The wording of a refusal; a malformed text is shown up to 200 characters. -/
def Unreadable.message : Unreadable → String
  | .tooLong digits =>
      s!"Exceeds the limit ({maxDigits} digits) for integer string conversion: value has " ++
        s!"{digits} digits; use sys.set_int_max_str_digits() to increase the limit"
  | .malformed text =>
      "invalid literal for int() with base 10: " ++ String.ofList ((quoted text).toList.take 200)

/-- The digits at the head of a text and what follows them; none if an underscore does not stand
between two digits. -/
def digitRun : List Char → Option (List Nat × List Char)
  | [] => some ([], [])
  | c :: rest =>
      match digitValue? c with
      | none => if c == '_' then none else some ([], c :: rest)
      | some d =>
          match rest with
          | '_' :: c' :: rest' =>
              if (digitValue? c').isNone then none
              else (digitRun (c' :: rest')).map fun run => (d :: run.1, run.2)
          | ['_'] => none
          | rest => (digitRun rest).map fun run => (d :: run.1, run.2)

/-- The number that a sequence of digits stands for, the most significant first. -/
def ofDigits (digits : List Nat) : Nat :=
  digits.foldl (fun n d => 10 * n + d) 0

/-- Splits off a sign. -/
def splitSign : List Char → Bool × List Char
  | '-' :: rest => (true, rest)
  | '+' :: rest => (false, rest)
  | text => (false, text)

/-- The integer that a text stands for. -/
def readInt (text : String) : Except Unreadable Int :=
  let signed := splitSign (trimStart isNumeralBlank text.toList)
  match digitRun signed.2 with
  | none => .error (.malformed text)
  | some (digits, rest) =>
      if maxDigits < digits.length then .error (.tooLong digits.length)
      else if digits.isEmpty || !(rest.all isNumeralBlank) then .error (.malformed text)
      else .ok (if signed.1 then -(ofDigits digits : Int) else ofDigits digits)

end ExprLang.Text
