/-!
# Binary64 numbers

A number of a document is a binary64 number of IEEE 754. It is kept as its 64 bits, so that equality
of the type is equality of bits: the two zeros differ, and NaNs with different payloads differ.
Comparison and arithmetic are exact integer computations on the fields, rounded once at the end: a
finite number is `significand * 2 ^ (scale - 1075)` with its sign.

`Binary64.ofRatio` is the one place where rounding happens (to nearest, a half to the even
neighbour); quotients, products, integers and decimal literals all go through it.
-/

namespace JsonSieve

/-- Division rounded to the nearest integer; a half goes to the even neighbour. -/
def roundDiv (num den : Nat) : Nat :=
  let q := num / den
  let r := num % den
  if den < 2 * r ∨ (2 * r = den ∧ q % 2 = 1) then q + 1 else q

structure Binary64 where
  /-- Sign, eleven bits of exponent, fifty-two bits of fraction, from the highest bit down. -/
  bits : UInt64
  deriving DecidableEq, Repr, Inhabited, Hashable

namespace Binary64

/-! ## Fields -/

def isNegative (x : Binary64) : Bool := decide (0x8000000000000000 ≤ x.bits)

/-- The bits without the sign; magnitudes of numbers are ordered as these are. -/
def magnitude (x : Binary64) : Nat := (x.bits &&& 0x7fffffffffffffff).toNat

def exponentField (x : Binary64) : Nat := x.magnitude / Nat.pow 2 52

def fractionField (x : Binary64) : Nat := x.magnitude % Nat.pow 2 52

def isFinite (x : Binary64) : Bool := decide (x.exponentField < 2047)

def isNaN (x : Binary64) : Bool := decide (0x7ff0000000000000 < x.magnitude)

def isInfinite (x : Binary64) : Bool := decide (x.magnitude = 0x7ff0000000000000)

def isZero (x : Binary64) : Bool := decide (x.magnitude = 0)

def significand (x : Binary64) : Nat :=
  if x.exponentField = 0 then x.fractionField else Nat.pow 2 52 + x.fractionField

/-- The exponent of a finite number, biased by 1075 against its integer significand. -/
def scale (x : Binary64) : Nat := max 1 x.exponentField

/-! ## Construction -/

/-- Bits from a sign and a magnitude below `2 ^ 63`. -/
def ofMagnitude (negative : Bool) (magnitude : Nat) : Binary64 :=
  ⟨UInt64.ofNat (if negative then Nat.pow 2 63 + magnitude else magnitude)⟩

def zero : Binary64 := ⟨0⟩

def one : Binary64 := ⟨0x3ff0000000000000⟩

def infinity (negative : Bool) : Binary64 := ofMagnitude negative (2047 * Nat.pow 2 52)

def nan : Binary64 := ⟨0x7ff8000000000000⟩

/-- The exponent of two below which no bit of the nearest number to `num / den` lies. -/
def unitExponent (num den : Nat) : Int :=
  let guess : Int := (num.log2 : Int) - den.log2
  let atLeast : Bool :=
    if 0 ≤ guess then decide (den * Nat.pow 2 guess.toNat ≤ num)
    else decide (den ≤ num * Nat.pow 2 (-guess).toNat)
  max ((if atLeast then guess else guess - 1) - 52) (-1074)

/-- The number nearest to `num / den`, a half going to the even neighbour; too large a ratio gives
an infinity. -/
def ofRatio (negative : Bool) (num den : Nat) : Binary64 :=
  if num = 0 then ofMagnitude negative 0
  else
    let unit := unitExponent num den
    let units :=
      if 0 ≤ unit then roundDiv num (den * Nat.pow 2 unit.toNat)
      else roundDiv (num * Nat.pow 2 (-unit).toNat) den
    let magnitude := (unit + 1074).toNat * Nat.pow 2 52 + units
    if 2047 * Nat.pow 2 52 ≤ magnitude then infinity negative else ofMagnitude negative magnitude

def ofInt (i : Int) : Binary64 := ofRatio (decide (i < 0)) i.natAbs 1

def ofInt64 (i : Int64) : Binary64 := ofInt i.toInt

/-! ## Comparison -/

/-- An integer that orders all numbers but NaN; both zeros have key zero. -/
def key (x : Binary64) : Int := if x.isNegative then -(x.magnitude : Int) else x.magnitude

def lt (x y : Binary64) : Bool := !x.isNaN && !y.isNaN && decide (x.key < y.key)

/-- Neither side is NaN and both denote the same number: they have the same bits, or both are zero. -/
def same (x y : Binary64) : Bool :=
  if x.bits = y.bits then !x.isNaN else x.isZero && y.isZero

/-! ## Arithmetic -/

def div (x y : Binary64) : Binary64 :=
  let negative := x.isNegative != y.isNegative
  if x.isNaN || y.isNaN || (x.isInfinite && y.isInfinite) || (x.isZero && y.isZero) then nan
  else if x.isInfinite || y.isZero then infinity negative
  else if y.isInfinite then ofMagnitude negative 0
  else ofRatio negative (x.significand * Nat.pow 2 (x.scale - y.scale))
    (y.significand * Nat.pow 2 (y.scale - x.scale))

def mul (x y : Binary64) : Binary64 :=
  let negative := x.isNegative != y.isNegative
  if x.isNaN || y.isNaN || (x.isInfinite && y.isZero) || (x.isZero && y.isInfinite) then nan
  else if x.isInfinite || y.isInfinite then infinity negative
  else ofRatio negative (x.significand * y.significand * Nat.pow 2 (x.scale + y.scale - 2150))
    (Nat.pow 2 (2150 - (x.scale + y.scale)))

def truncatedMagnitude (x : Binary64) : Nat :=
  x.significand * Nat.pow 2 (x.scale - 1075) / Nat.pow 2 (1075 - x.scale)

def isIntegral (x : Binary64) : Bool :=
  x.isFinite && decide (x.significand % Nat.pow 2 (1075 - x.scale) = 0)

/-- The number as a word: the fraction is dropped, values out of range give the nearest word, and
NaN gives zero. -/
def toInt64 (x : Binary64) : Int64 :=
  if x.isNaN then 0
  else if x.isNegative then
    if x.isFinite && decide (x.truncatedMagnitude ≤ Nat.pow 2 63) then
      Int64.ofInt (-(x.truncatedMagnitude : Int))
    else Int64.minValue
  else
    if x.isFinite && decide (x.truncatedMagnitude < Nat.pow 2 63) then
      Int64.ofInt x.truncatedMagnitude
    else Int64.maxValue

end Binary64

end JsonSieve
