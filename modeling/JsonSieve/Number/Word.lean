/-!
# Words

Tables of an image are indexed by 32-bit words and operands hold 64-bit words. A count that does not
fit a word becomes the largest word. Words are stored with the least significant byte first.
-/

namespace JsonSieve.Word

/-- The word of a count; a count that does not fit gives the largest word. -/
def saturate (n : Nat) : UInt32 := if n < Nat.pow 2 32 then UInt32.ofNat n else 0xffffffff

def ofNat? (n : Nat) : Option UInt32 := if n < Nat.pow 2 32 then some (UInt32.ofNat n) else none

/-- The `n` lowest bytes of a number, the least significant first. -/
def bytes : Nat → Nat → List UInt8
  | 0, _ => []
  | n + 1, value => UInt8.ofNat (value % 256) :: bytes n (value / 256)

def ofBytes : List UInt8 → Nat
  | [] => 0
  | b :: rest => b.toNat + 256 * ofBytes rest

def popCount : Nat → Nat → Nat
  | 0, _ => 0
  | n + 1, value => value % 2 + popCount n (value / 2)

end JsonSieve.Word
