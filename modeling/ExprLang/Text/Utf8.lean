import ExprLang.Text.Quoted

/-!
# Reading UTF-8

A sequence of bytes is read as characters up to the first bytes that start no character. Such bytes
are refused with their positions and a reason: the first byte starts no character, a byte does not
go on with the character begun, or the bytes end within a character.
-/

namespace ExprLang.Text

/-- Why bytes are not UTF-8. -/
inductive Utf8Reason where
  | invalidStart
  | invalidContinuation
  | unexpectedEnd
deriving DecidableEq, Repr

/-- Bytes that are refused: the first of them, their positions, and the reason. -/
structure Utf8Fault where
  byte : UInt8
  start : Nat
  stop : Nat
  reason : Utf8Reason
deriving DecidableEq, Repr

/-- The wording of a reason. -/
def Utf8Reason.message : Utf8Reason → String
  | .invalidStart => "invalid start byte"
  | .invalidContinuation => "invalid continuation byte"
  | .unexpectedEnd => "unexpected end of data"

/-- The wording of a refusal. -/
def Utf8Fault.message (f : Utf8Fault) : String :=
  let place :=
    if f.stop = f.start + 1 then
      "byte 0x" ++ String.ofList (hexDigits 2 f.byte.toNat) ++ " in position " ++ toString f.start
    else
      "bytes in position " ++ toString f.start ++ "-" ++ toString (f.stop - 1)
  "'utf-8' codec can't decode " ++ place ++ ": " ++ f.reason.message

/-- Whether a byte can go on with a character. -/
def isContinuation (b : UInt8) : Bool :=
  0x80 ≤ b && b < 0xc0

/-- Whether a byte can be the second of a character with the given first byte: overlong forms,
surrogates and code points beyond the last are left out. -/
def isSecond (first b : UInt8) : Bool :=
  isContinuation b &&
    !(first == 0xe0 && b < 0xa0) && !(first == 0xed && 0xa0 ≤ b) &&
    !(first == 0xf0 && b < 0x90) && !(first == 0xf4 && 0x90 ≤ b)

/-- The bits that a byte adds to a code point. -/
def continueCode (code : Nat) (b : UInt8) : Nat :=
  code * 64 + b.toNat % 64

/-- The characters of bytes, the first of which stands at a position. -/
def decodeUtf8From (position : Nat) : List UInt8 → Except Utf8Fault (List Char)
  | [] => .ok []
  | b :: rest =>
      let refuse (length : Nat) (reason : Utf8Reason) : Except Utf8Fault (List Char) :=
        .error ⟨b, position, position + length, reason⟩
      let refuseContinuation (length : Nat) := refuse length .invalidContinuation
      let refuseEnd := refuse (rest.length + 1) .unexpectedEnd
      if b < 0x80 then
        (decodeUtf8From (position + 1) rest).map (Char.ofNat b.toNat :: ·)
      else if b < 0xc2 || 0xf5 ≤ b then
        refuse 1 .invalidStart
      else
        match rest with
        | [] => refuseEnd
        | c :: rest =>
            if !isSecond b c then refuseContinuation 1
            else if b < 0xe0 then
              (decodeUtf8From (position + 2) rest).map
                (Char.ofNat (continueCode (b.toNat % 32) c) :: ·)
            else
              match rest with
              | [] => refuseEnd
              | d :: rest =>
                  if !isContinuation d then refuseContinuation 2
                  else if b < 0xf0 then
                    (decodeUtf8From (position + 3) rest).map
                      (Char.ofNat (continueCode (continueCode (b.toNat % 16) c) d) :: ·)
                  else
                    match rest with
                    | [] => refuseEnd
                    | e :: rest =>
                        if !isContinuation e then refuseContinuation 3
                        else
                          (decodeUtf8From (position + 4) rest).map
                            (Char.ofNat
                              (continueCode (continueCode (continueCode (b.toNat % 8) c) d) e) :: ·)

/-- The text of bytes in UTF-8. -/
def decodeUtf8 (bytes : List UInt8) : Except Utf8Fault String :=
  (decodeUtf8From 0 bytes).map String.ofList

end ExprLang.Text
