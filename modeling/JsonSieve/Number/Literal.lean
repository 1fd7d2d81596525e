import JsonSieve.Number.Binary64

/-!
# Decimal literals

A number in a JSON text is an optional minus sign, an integer part without superfluous zeros, an
optional fraction and an optional exponent. `Literal.parse?` reads exactly these texts, given as
bytes; `Literal.toBinary64` is the nearest binary64 number. Of an exponent far beyond the range of
binary64 only the leading digits count.
-/

namespace JsonSieve

structure Literal where
  negative : Bool
  coefficient : Nat
  exponent : Int
  plain : Bool
  deriving DecidableEq, Repr, Inhabited

namespace Literal

def isDigit (b : UInt8) : Bool := decide (0x30 ≤ b) && decide (b ≤ 0x39)

def digitsValue (digits : List UInt8) : Nat :=
  digits.foldl (fun n b => 10 * n + (b.toNat - 0x30)) 0

/-- The number that a run of digits denotes, found from those of its halves. A long run takes much
less work this way. -/
def digitsValueBy : Nat → List UInt8 → Nat
  | 0, digits => digitsValue digits
  | fuel + 1, digits =>
    let size := digits.length
    if size ≤ 32 then digitsValue digits
    else
      let half := size / 2
      digitsValueBy fuel (digits.take half) * Nat.pow 10 (size - half)
        + digitsValueBy fuel (digits.drop half)

def digits (text : List UInt8) : List UInt8 × List UInt8 := text.span isDigit

def sign : List UInt8 → Bool × List UInt8
  | 0x2d :: rest => (true, rest)
  | text => (false, text)

def integerPart? : List UInt8 → Option (List UInt8 × List UInt8)
  | [] => none
  | b :: rest =>
    if b = 0x30 then some ([b], rest)
    else if isDigit b then some (digits (b :: rest))
    else none

def fraction? : List UInt8 → Option (List UInt8 × List UInt8)
  | 0x2e :: rest =>
    match digits rest with
    | ([], _) => none
    | run => some run
  | text => some ([], text)

def exponentSign : List UInt8 → Bool × List UInt8
  | 0x2b :: rest => (false, rest)
  | 0x2d :: rest => (true, rest)
  | text => (false, text)

/-- The number that the digits of an exponent denote. Digits behind a number of `2 ^ 16` or more do not
count. -/
def exponentValue (digits : List UInt8) : Nat :=
  digits.foldl (fun n b => if n < 0x10000 then 10 * n + (b.toNat - 0x30) else n) 0

def exponent? : List UInt8 → Option (Option Int × List UInt8)
  | [] => some (none, [])
  | b :: rest =>
    if b = 0x65 ∨ b = 0x45 then
      let (negative, rest) := exponentSign rest
      match digits rest with
      | ([], _) => none
      | (run, rest) =>
        let value : Int := exponentValue run
        some (some (if negative then -value else value), rest)
    else some (none, b :: rest)

def parse? (text : List UInt8) : Option Literal := do
  let (negative, text) := sign text
  let (whole, text) ← integerPart? text
  let (fraction, text) ← fraction? text
  let (exponent, text) ← exponent? text
  if text.isEmpty then
    some {
      negative
      coefficient := digitsValueBy 64 (whole ++ fraction)
      exponent := exponent.getD 0 - fraction.length
      plain := fraction.isEmpty && exponent.isNone }
  else none

/-- The nearest binary64 number. Literals far beyond the range of binary64 are settled by their
magnitude alone: from `10 ^ 400` on they are infinite, and below `2 ^ -1100` they are zero. -/
def toBinary64 (l : Literal) : Binary64 :=
  if l.coefficient = 0 then Binary64.ofMagnitude l.negative 0
  else if 400 ≤ l.exponent then Binary64.infinity l.negative
  else if 0 ≤ l.exponent then
    Binary64.ofRatio l.negative (l.coefficient * Nat.pow 10 l.exponent.toNat) 1
  else
    let places := (-l.exponent).toNat
    if l.coefficient.log2 + 1101 ≤ 3 * places then Binary64.ofMagnitude l.negative 0
    else Binary64.ofRatio l.negative l.coefficient (Nat.pow 10 places)

def toInt? (l : Literal) : Option Int :=
  if l.plain then some (if l.negative then -(l.coefficient : Int) else l.coefficient) else none

end Literal

end JsonSieve
