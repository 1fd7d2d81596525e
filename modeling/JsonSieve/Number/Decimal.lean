import JsonSieve.Number.Binary64

/-!
# Decimal text of binary64 numbers

Listings write a number with the fewest digits that read back as the same number, positionally and
without an exponent; canonical texts may have an exponent. Of two shortest candidates the nearer is taken; at
equal distance, the larger. Reports write a number with one place after the point, a half going to the even neighbour.
-/

namespace JsonSieve

structure Decimal where
  coefficient : Nat
  exponent : Int
  deriving DecidableEq, Repr, Inhabited

namespace Decimal

/-- Zeros at the end of the coefficient move into the exponent. -/
def trimmed (d : Decimal) : Nat → Decimal
  | 0 => d
  | n + 1 =>
    if d.coefficient % 10 = 0 then
      trimmed ⟨d.coefficient / 10, d.exponent + 1⟩ n
    else d

def positional (d : Decimal) : String :=
  let digits := Nat.toDigits 10 d.coefficient
  if 0 ≤ d.exponent then String.ofList (digits ++ List.replicate d.exponent.toNat '0')
  else
    let places := (-d.exponent).toNat
    if places < digits.length then
      let whole := digits.length - places
      String.ofList (digits.take whole ++ '.' :: digits.drop whole)
    else
      String.ofList ('0' :: '.' :: List.replicate (places - digits.length) '0' ++ digits)

/-- The text with a point, or with an exponent where the point would stand far from the digits. -/
def text (d : Decimal) : String :=
  let digits := Nat.toDigits 10 d.coefficient
  let whole : Int := digits.length + d.exponent
  if -5 < whole ∧ whole ≤ 16 then d.positional ++ (if 0 ≤ d.exponent then ".0" else "")
  else
    let places := digits.drop 1
    String.ofList (digits.take 1 ++ if places.isEmpty then [] else '.' :: places) ++ s!"e{whole - 1}"

end Decimal

namespace Binary64

/-- The places by which a number is shifted to the left before its digits are cut: every positive
finite number times `10 ^ 400` has more than 17 digits before the point. -/
def decimalShift : Nat := 400

/-- The numerator and denominator of four times the magnitude of a finite number: quarters are
fine enough to write the ends of the interval of reals that round to it. -/
def quarters (x : Binary64) : Nat × Nat :=
  (4 * x.significand * Nat.pow 2 (x.scale - 1075), Nat.pow 2 (1075 - x.scale))

/-- Does `coefficient * 10 ^ exponent` read back as the positive finite number `x`? The interval of
such reals reaches half a unit up and half a unit, or a quarter at a power of two, down; its ends
belong to it when the significand is even. -/
def readsBack (x : Binary64) (d : Decimal) : Bool :=
  let m := x.significand
  let below := if m = Nat.pow 2 52 ∧ 1 < x.scale then 1 else 2
  -- compare `4 * d` with `(4 * m ± …) * 2 ^ (scale - 1075)`, all multiplied out
  let left := 4 * d.coefficient * Nat.pow 10 d.exponent.toNat * Nat.pow 2 (1075 - x.scale)
  let unit := Nat.pow 2 (x.scale - 1075) * Nat.pow 10 (-d.exponent).toNat
  let low := (4 * m - below) * unit
  let high := (4 * m + 2) * unit
  if m % 2 = 0 then decide (low ≤ left) && decide (left ≤ high)
  else decide (low < left) && decide (left < high)

/-- Is the decimal above `d` by one unit at least as near to `x` as `d` itself is? -/
def nearerAbove (x : Binary64) (d : Decimal) : Bool :=
  let left := (2 * d.coefficient + 1) * Nat.pow 10 d.exponent.toNat * Nat.pow 2 (1075 - x.scale)
  let right := 2 * x.significand * Nat.pow 2 (x.scale - 1075) * Nat.pow 10 (-d.exponent).toNat
  decide (left ≤ right)

/-- The candidates with `n` digits for a number whose digits, shifted left by `decimalShift`
places, are `shifted`. -/
def candidate? (x : Binary64) (shifted : Nat) (n : Nat) : Option Decimal :=
  let size := (Nat.toDigits 10 shifted).length
  let exponent : Int := (size : Int) - decimalShift - n
  let down : Decimal := ⟨shifted / Nat.pow 10 (size - n), exponent⟩
  let up : Decimal := ⟨down.coefficient + 1, exponent⟩
  match x.readsBack down, x.readsBack up with
  | true, true => some (if x.nearerAbove down then up else down)
  | true, false => some down
  | false, true => some up
  | false, false => none

def shortest (x : Binary64) : Decimal :=
  let (num, den) := x.quarters
  let shifted := num * Nat.pow 10 decimalShift / (4 * den)
  let found := (List.range' 1 17).findSome? (x.candidate? shifted)
  (found.getD ⟨shifted, -decimalShift⟩).trimmed 20

def written (write : Decimal → String) (x : Binary64) : String :=
  if x.isNaN then "NaN"
  else
    let body :=
      if x.isInfinite then "inf"
      else if x.isZero then "0"
      else write x.shortest
    if x.isNegative then "-" ++ body else body

def listing (x : Binary64) : String := x.written Decimal.positional

/-- The text of a finite number that is not negative with one place after the point. -/
def onePlace (x : Binary64) : String :=
  let (num, den) := x.quarters
  let tenths := roundDiv (10 * num) (4 * den)
  s!"{tenths / 10}.{tenths % 10}"

end Binary64

end JsonSieve
