import JsonSieve.Text.Utf8

/-!
# Byte ranges of code points

`ByteRange.sequences` writes a range of code points as sequences of byte ranges: a text of one character
belongs to the range exactly when its bytes fit one of the sequences, byte for byte. The sequences come
in ascending order.
-/

namespace JsonSieve

structure ByteRange where
  low : UInt8
  high : UInt8
  deriving DecidableEq, Repr, Inhabited

namespace ByteRange

/-- The greatest code points that one, two and three bytes hold. -/
def lengthEnds : List Nat := [0x7f, 0x7ff, 0xffff]

/-- The numbers of values that the last byte, the last two and the last three bytes can take. -/
def blocks : List Nat := [0x40, 0x1000, 0x40000]

/-- Where the range of code points `low` to `high` is to be cut: the last code point of the first part.
The code points that UTF-8 leaves out are no part of any range. -/
def cut? (low high : Nat) : Option Nat :=
  if low < 0xe000 ∧ 0xd7ff < high then some 0xd7ff
  else
    match lengthEnds.find? fun last => decide (low ≤ last) && decide (last < high) with
    | some last => some last
    | none =>
      if high ≤ 0x7f then none
      else
        blocks.findSome? fun block =>
          if low / block = high / block then none
          else if low % block ≠ 0 then some (low / block * block + block - 1)
          else if high % block ≠ block - 1 then some (high / block * block - 1)
          else none

/-- The sequence of a range whose ends differ, byte for byte, only where all values lie between. -/
def ofEnds (low high : Nat) : List ByteRange :=
  (Utf8.encode (Char.ofNat low)).zipWith .mk (Utf8.encode (Char.ofNat high))

def sequencesWithin : Nat → Nat → Nat → List (List ByteRange)
  | 0, _, _ => []
  | fuel + 1, low, high =>
    if high < low then []
    else
      match cut? low high with
      | none => [ofEnds low high]
      | some last =>
        let next := if last = 0xd7ff then 0xe000 else last + 1
        sequencesWithin fuel low last ++ sequencesWithin fuel next high

/-- The sequences of the range `low` to `high`. A range is cut at most once at the gap, three times
between lengths and twice for each block on either side. -/
def sequences (low high : Nat) : List (List ByteRange) := sequencesWithin 32 low high

end ByteRange

end JsonSieve
