import ConstantFlow.Text.Hex

/-!
# Reading UTF-8

Bytes are read one after the other. A fault names the bytes that begin a character and do not
complete it: neither overlong forms nor surrogates nor code points beyond the last are read.
-/

namespace ConstantFlow.Text

/-- What is wrong with a sequence of bytes. -/
inductive Utf8Reason where
  | invalidStart
  | invalidContinuation
  | unexpectedEnd
deriving DecidableEq, Repr

/-- Bytes that are no character: where they start and which they are. -/
structure Utf8Error where
  position : Nat
  first : UInt8
  /-- The number of bytes after the first. -/
  more : Nat
  reason : Utf8Reason
deriving DecidableEq, Repr

def Utf8Reason.message : Utf8Reason → String
  | .invalidStart => "invalid start byte"
  | .invalidContinuation => "invalid continuation byte"
  | .unexpectedEnd => "unexpected end of data"

/-- The wording of a fault; a single byte is shown, of several only the positions. -/
def Utf8Error.message (e : Utf8Error) : String :=
  let what :=
    if e.more = 0 then
      "byte 0x" ++ String.ofList (hex 2 e.first.toNat) ++ " in position " ++ toString e.position
    else
      "bytes in position " ++ toString e.position ++ "-" ++ toString (e.position + e.more)
  "'utf-8' codec can't decode " ++ what ++ ": " ++ e.reason.message

namespace Utf8

/-- A character of which some bytes have been read. -/
structure Partway where
  first : UInt8
  /-- How many bytes after the first have been read. -/
  more : Nat
  /-- How many bytes are still to come. -/
  left : Nat
  /-- The range that the next byte must lie in. -/
  low : Nat
  high : Nat
  /-- The bits of the code point read so far. -/
  bits : Nat
deriving Repr

/-- A reader between two bytes. -/
structure Reader where
  /-- The characters read so far, the last one first. -/
  chars : List Char
  /-- How many bytes have been read. -/
  position : Nat
  partway : Option Partway

/-- How a character that takes several bytes starts. The range of the second byte keeps out
overlong forms, surrogates and code points beyond the last. -/
def lead? (b : UInt8) : Option Partway :=
  let n := b.toNat
  if 0xc2 ≤ n ∧ n ≤ 0xdf then some ⟨b, 0, 1, 0x80, 0xbf, n - 0xc0⟩
  else if n = 0xe0 then some ⟨b, 0, 2, 0xa0, 0xbf, 0⟩
  else if n = 0xed then some ⟨b, 0, 2, 0x80, 0x9f, n - 0xe0⟩
  else if 0xe1 ≤ n ∧ n ≤ 0xef then some ⟨b, 0, 2, 0x80, 0xbf, n - 0xe0⟩
  else if n = 0xf0 then some ⟨b, 0, 3, 0x90, 0xbf, 0⟩
  else if 0xf1 ≤ n ∧ n ≤ 0xf3 then some ⟨b, 0, 3, 0x80, 0xbf, n - 0xf0⟩
  else if n = 0xf4 then some ⟨b, 0, 3, 0x80, 0x8f, n - 0xf0⟩
  else none

/-- The fault of a character that was left partway. -/
def Reader.fault (r : Reader) (p : Partway) (reason : Utf8Reason) : Utf8Error where
  position := r.position - (p.more + 1)
  first := p.first
  more := p.more
  reason := reason

/-- Reads one byte. -/
def Reader.step (r : Reader) (b : UInt8) : Except Utf8Error Reader :=
  match r.partway with
  | none =>
    if b.toNat < 0x80 then
      .ok { r with chars := Char.ofNat b.toNat :: r.chars, position := r.position + 1 }
    else
      match lead? b with
      | some p => .ok { r with position := r.position + 1, partway := some p }
      | none => .error ⟨r.position, b, 0, .invalidStart⟩
  | some p =>
    if p.low ≤ b.toNat ∧ b.toNat ≤ p.high then
      let bits := p.bits * 64 + (b.toNat - 0x80)
      if p.left ≤ 1 then
        .ok { chars := Char.ofNat bits :: r.chars, position := r.position + 1, partway := none }
      else
        let next : Partway :=
          { p with more := p.more + 1, left := p.left - 1, low := 0x80, high := 0xbf, bits := bits }
        .ok { r with position := r.position + 1, partway := some next }
    else .error (r.fault p .invalidContinuation)

/-- The characters that bytes stand for. -/
def decode (bytes : List UInt8) : Except Utf8Error (List Char) := do
  let r ← bytes.foldlM Reader.step { chars := [], position := 0, partway := none }
  match r.partway with
  | none => .ok r.chars.reverse
  | some p => .error (r.fault p .unexpectedEnd)

end Utf8

end ConstantFlow.Text
