import AwaitScript.Text.Digit

/-!
UTF-8 in bytes. Decoding is strict: it stops at the first byte that cannot go on, and names the bytes
that were read in vain.
-/

namespace AwaitScript.Utf8

inductive Reason where
  | invalidStart
  | invalidContinuation
  | unexpectedEnd
deriving DecidableEq, Repr

def Reason.text : Reason → String
  | invalidStart => "invalid start byte"
  | invalidContinuation => "invalid continuation byte"
  | unexpectedEnd => "unexpected end of data"

structure Fault where
  start : Nat
  length : Nat
  first : UInt8
  reason : Reason
deriving DecidableEq, Repr

def Fault.message (f : Fault) : String :=
  if f.length = 1 then
    "'utf-8' codec can't decode byte 0x" ++ String.ofList (Hexadecimal.write 2 f.first.toNat) ++
      s!" in position {f.start}: " ++ f.reason.text
  else
    let last := f.start + f.length - 1
    s!"'utf-8' codec can't decode bytes in position {f.start}-{last}: " ++ f.reason.text

def isContinuation (b : UInt8) : Bool := 0x80 ≤ b && b < 0xC0

/-- Whether `b` may follow the first byte `a` of a longer character. The bounds leave out overlong
forms, surrogates and what lies above the last code point. -/
def mayFollow (a b : UInt8) : Bool :=
  isContinuation b && (a ≠ 0xE0 || 0xA0 ≤ b) && (a ≠ 0xED || b < 0xA0) &&
    (a ≠ 0xF0 || 0x90 ≤ b) && (a ≠ 0xF4 || b < 0x90)

def bits (b : UInt8) : Nat := b.toNat % 0x40

def char2 (a b : UInt8) : Char := Char.ofNat (a.toNat % 0x20 * 0x40 + bits b)

def char3 (a b c : UInt8) : Char := Char.ofNat ((a.toNat % 0x10 * 0x40 + bits b) * 0x40 + bits c)

def char4 (a b c d : UInt8) : Char :=
  Char.ofNat (((a.toNat % 0x08 * 0x40 + bits b) * 0x40 + bits c) * 0x40 + bits d)

def decodeFrom (offset : Nat) : List UInt8 → Except Fault (List Char)
  | [] => .ok []
  | a :: rest =>
    let fail (length : Nat) (reason : Reason) : Except Fault (List Char) :=
      .error ⟨offset, length, a, reason⟩
    if a < 0x80 then (decodeFrom (offset + 1) rest).map (Char.ofNat a.toNat :: ·)
    else if a < 0xC2 || 0xF5 ≤ a then fail 1 .invalidStart
    else
      match rest with
      | [] => fail 1 .unexpectedEnd
      | b :: rest =>
        if !mayFollow a b then fail 1 .invalidContinuation
        else if a < 0xE0 then (decodeFrom (offset + 2) rest).map (char2 a b :: ·)
        else
          match rest with
          | [] => fail 2 .unexpectedEnd
          | c :: rest =>
            if !isContinuation c then fail 2 .invalidContinuation
            else if a < 0xF0 then (decodeFrom (offset + 3) rest).map (char3 a b c :: ·)
            else
              match rest with
              | [] => fail 3 .unexpectedEnd
              | d :: rest =>
                if !isContinuation d then fail 3 .invalidContinuation
                else (decodeFrom (offset + 4) rest).map (char4 a b c d :: ·)

def decode (bytes : List UInt8) : Except Fault (List Char) := decodeFrom 0 bytes

def encode (text : List Char) : List UInt8 := text.flatMap String.utf8EncodeChar

end AwaitScript.Utf8
