import Utterance.Fault

/-!
# Texts from bytes

`decodeUtf8` reads bytes as UTF-8, the shortest form of each character only and no surrogates. Bytes that are none
are reported with their offsets. `unifyLines` makes one kind of line end of all three.
-/

namespace Utterance.Text

/-- The number of bytes that a character with this first byte has. -/
def utf8Length? (b : Nat) : Option Nat :=
  if b < 0x80 then some 1
  else if b < 0xC2 then none
  else if b < 0xE0 then some 2
  else if b < 0xF0 then some 3
  else if b < 0xF5 then some 4
  else none

/-- The bytes that may come second, after a given first one. -/
def secondRange (b : Nat) : Nat × Nat :=
  if b = 0xE0 then (0xA0, 0xBF)
  else if b = 0xED then (0x80, 0x9F)
  else if b = 0xF0 then (0x90, 0xBF)
  else if b = 0xF4 then (0x80, 0x8F)
  else (0x80, 0xBF)

/-- Reads `count` continuation bytes, the first of them in a given range. `taken` bytes of the character at `offset`
have been read and stand for `value`. -/
def continuation (first offset : Nat) : Nat → Nat × Nat → Nat → Nat → List UInt8 → Except Fault (Nat × List UInt8)
  | 0, _, _, value, rest => .ok (value, rest)
  | count + 1, range, taken, value, rest =>
    match rest with
    | [] => .error (.undecodable first offset (offset + taken - 1) "unexpected end of data")
    | b :: rest =>
      if range.1 ≤ b.toNat ∧ b.toNat ≤ range.2 then
        continuation first offset count (0x80, 0xBF) (taken + 1) (value * 64 + (b.toNat - 0x80)) rest
      else .error (.undecodable first offset (offset + taken - 1) "invalid continuation byte")

/-- Decodes bytes from an offset on; `fuel` bounds the number of characters. -/
def decodeFrom : Nat → Nat → List UInt8 → Except Fault (List Char)
  | 0, _, _ => .ok []
  | _, _, [] => .ok []
  | fuel + 1, offset, b :: rest => do
    let first := b.toNat
    match utf8Length? first with
    | none => throw (.undecodable first offset offset "invalid start byte")
    | some n =>
      let lead := if n = 1 then first else first % 2 ^ (7 - n)
      let (code, rest) ← continuation first offset (n - 1) (secondRange first) 1 lead rest
      return Char.ofNat code :: (← decodeFrom fuel (offset + n) rest)

def decodeUtf8 (bytes : List UInt8) : Except Fault (List Char) := decodeFrom bytes.length 0 bytes

def unifyLines : List Char → List Char
  | '\r' :: '\n' :: rest => '\n' :: unifyLines rest
  | '\r' :: rest => '\n' :: unifyLines rest
  | c :: rest => c :: unifyLines rest
  | [] => []

end Utterance.Text
