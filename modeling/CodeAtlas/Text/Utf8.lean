/-
  Text from bytes.

  `Utf8.decode` reads bytes as UTF-8 and says, when they are not, which bytes
  are at fault and why. A sequence that goes wrong is at fault from its first
  byte up to, and not with, the byte that does not continue it.
-/

namespace CodeAtlas.Text.Utf8

/-- Why a byte sequence is no character. -/
inductive Reason where
  | invalidStart
  | invalidContinuation
  | unexpectedEnd
  deriving DecidableEq, Repr

/-- A byte sequence that is no character: its offset, its first byte, how many
bytes of it are at fault, and why. -/
structure Fault where
  offset : Nat
  first : UInt8
  count : Nat
  reason : Reason
  deriving DecidableEq, Repr

/-- The wording of a reason. -/
def Reason.message : Reason → String
  | .invalidStart => "invalid start byte"
  | .invalidContinuation => "invalid continuation byte"
  | .unexpectedEnd => "unexpected end of data"

/-- A byte as two hexadecimal digits. -/
def hexByte (b : UInt8) : String :=
  String.ofList [Nat.digitChar (b.toNat / 16), Nat.digitChar (b.toNat % 16)]

/-- The wording of a fault: one byte is shown, several are given by their
first and last offset. -/
def Fault.message (f : Fault) : String :=
  if f.count = 1 then
    s!"'utf-8' codec can't decode byte 0x{hexByte f.first} in position {f.offset}: "
      ++ f.reason.message
  else
    s!"'utf-8' codec can't decode bytes in position {f.offset}-{f.offset + f.count - 1}: "
      ++ f.reason.message

/-- A character begun and not yet ended: where it began and with which byte,
how many bytes it has, the bits read, and the ranges that the bytes still to
come must lie in, the next one first. -/
structure Pending where
  offset : Nat
  first : UInt8
  count : Nat
  bits : Nat
  next : Nat × Nat
  later : List (Nat × Nat)

/-- The ranges of bytes that may follow a first byte, and its payload bits.
After `E0`, `ED`, `F0` and `F4` the second byte is restricted, which rules out
long forms, surrogates and values past the last code point. -/
def begin? (offset : Nat) (b : UInt8) : Option Pending :=
  let n := b.toNat
  let tail : Nat × Nat := (0x80, 0xbf)
  if 0xc2 ≤ n ∧ n ≤ 0xdf then some ⟨offset, b, 1, n - 0xc0, tail, []⟩
  else if n = 0xe0 then some ⟨offset, b, 1, 0, (0xa0, 0xbf), [tail]⟩
  else if n = 0xed then some ⟨offset, b, 1, 0xd, (0x80, 0x9f), [tail]⟩
  else if 0xe1 ≤ n ∧ n ≤ 0xef then some ⟨offset, b, 1, n - 0xe0, tail, [tail]⟩
  else if n = 0xf0 then some ⟨offset, b, 1, 0, (0x90, 0xbf), [tail, tail]⟩
  else if 0xf1 ≤ n ∧ n ≤ 0xf3 then some ⟨offset, b, 1, n - 0xf0, tail, [tail, tail]⟩
  else if n = 0xf4 then some ⟨offset, b, 1, 4, (0x80, 0x8f), [tail, tail]⟩
  else none

/-- The characters of the bytes from `offset` on, where `pending` is the
character that the bytes before them left unfinished. -/
def decodeFrom (offset : Nat) (pending : Option Pending) : List UInt8 → Except Fault (List Char)
  | [] =>
    match pending with
    | none => .ok []
    | some p => .error ⟨p.offset, p.first, p.count, .unexpectedEnd⟩
  | b :: bs =>
    match pending with
    | none =>
      if b.toNat < 0x80 then
        (decodeFrom (offset + 1) none bs).map (Char.ofNat b.toNat :: ·)
      else
        match begin? offset b with
        | none => .error ⟨offset, b, 1, .invalidStart⟩
        | some p => decodeFrom (offset + 1) (some p) bs
    | some p =>
      if p.next.1 ≤ b.toNat ∧ b.toNat ≤ p.next.2 then
        let bits := p.bits * 64 + (b.toNat - 0x80)
        match p.later with
        | [] => (decodeFrom (offset + 1) none bs).map (Char.ofNat bits :: ·)
        | r :: rs =>
          decodeFrom (offset + 1) (some ⟨p.offset, p.first, p.count + 1, bits, r, rs⟩) bs
      else .error ⟨p.offset, p.first, p.count, .invalidContinuation⟩

/-- The text that the bytes encode. -/
def decode (bytes : List UInt8) : Except Fault String :=
  (decodeFrom 0 none bytes).map String.ofList

end CodeAtlas.Text.Utf8
