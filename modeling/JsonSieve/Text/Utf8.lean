/-!
# UTF-8

`Utf8.decode` reads bytes as characters and, when they are not well formed, gives the offset of the
first sequence that is not. Overlong forms, surrogates and numbers beyond the last character are not
well formed. `Utf8.encode` writes one character.
-/

namespace JsonSieve.Utf8

def isContinuation (b : UInt8) : Bool := decide (0x80 ≤ b) && decide (b ≤ 0xbf)

def payload (b : UInt8) : Nat := b.toNat % 64

/-- The character of a well-formed sequence of two bytes. -/
def two? (a b : UInt8) : Option Char :=
  if 0xc2 ≤ a ∧ a ≤ 0xdf ∧ isContinuation b then
    some (Char.ofNat (a.toNat % 32 * 64 + payload b))
  else none

def three? (a b c : UInt8) : Option Char :=
  if 0xe0 ≤ a ∧ a ≤ 0xef ∧ isContinuation b ∧ isContinuation c
      ∧ (a = 0xe0 → 0xa0 ≤ b) ∧ (a = 0xed → b ≤ 0x9f) then
    some (Char.ofNat (a.toNat % 16 * 4096 + payload b * 64 + payload c))
  else none

def four? (a b c d : UInt8) : Option Char :=
  if 0xf0 ≤ a ∧ a ≤ 0xf4 ∧ isContinuation b ∧ isContinuation c ∧ isContinuation d
      ∧ (a = 0xf0 → 0x90 ≤ b) ∧ (a = 0xf4 → b ≤ 0x8f) then
    some (Char.ofNat (a.toNat % 8 * 262144 + payload b * 4096 + payload c * 64 + payload d))
  else none

/-- The characters of bytes that begin at `offset`, or the offset of the first sequence that is not
well formed. -/
def decodeFrom (offset : Nat) : List UInt8 → Except Nat (List Char)
  | [] => .ok []
  | a :: rest =>
    if a < 0x80 then (Char.ofNat a.toNat :: ·) <$> decodeFrom (offset + 1) rest
    else
      match rest with
      | [] => .error offset
      | b :: rest =>
        match two? a b with
        | some ch => (ch :: ·) <$> decodeFrom (offset + 2) rest
        | none =>
          match rest with
          | [] => .error offset
          | c :: rest =>
            match three? a b c with
            | some ch => (ch :: ·) <$> decodeFrom (offset + 3) rest
            | none =>
              match rest with
              | [] => .error offset
              | d :: rest =>
                match four? a b c d with
                | some ch => (ch :: ·) <$> decodeFrom (offset + 4) rest
                | none => .error offset

def decode (bytes : List UInt8) : Except Nat (List Char) := decodeFrom 0 bytes

def encode (c : Char) : List UInt8 :=
  let n := c.toNat
  let tail (k : Nat) : UInt8 := UInt8.ofNat (0x80 + n / k % 64)
  if n < 0x80 then [UInt8.ofNat n]
  else if n < 0x800 then [UInt8.ofNat (0xc0 + n / 64), tail 1]
  else if n < 0x10000 then [UInt8.ofNat (0xe0 + n / 4096), tail 64, tail 1]
  else [UInt8.ofNat (0xf0 + n / 262144), tail 4096, tail 64, tail 1]

def encodeText (text : String) : List UInt8 := text.toList.flatMap encode

end JsonSieve.Utf8
