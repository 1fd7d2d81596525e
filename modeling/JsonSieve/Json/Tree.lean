import JsonSieve.Number.Binary64
import JsonSieve.Number.Decimal
import JsonSieve.Number.Literal

/-!
# JSON trees

A JSON document as a tree. The type of its numbers is left open: the value of a document has
binary64 numbers, a document as it was written has literals, and a document about to be written has
counts and reals (`Scalar`). Objects are lists of members, in order and with repeated names kept.
-/

namespace JsonSieve

inductive Json (ν : Type) where
  | null
  | bool (b : Bool)
  | number (n : ν)
  | string (text : String)
  | array (items : List (Json ν))
  | object (members : List (String × Json ν))
  deriving Repr, Inhabited, BEq

namespace Json

variable {ν : Type}

def get? (name : String) (members : List (String × Json ν)) : Option (Json ν) :=
  (members.reverse.find? (·.1 = name)).map (·.2)

mutual

def depth : Json ν → Nat
  | .array items => itemsDepth items + 1
  | .object members => membersDepth members + 1
  | _ => 0

def itemsDepth : List (Json ν) → Nat
  | [] => 0
  | item :: items => max item.depth (itemsDepth items)

def membersDepth : List (String × Json ν) → Nat
  | [] => 0
  | (_, value) :: members => max value.depth (membersDepth members)

end

mutual

def mapNumbers {μ : Type} (f : ν → μ) : Json ν → Json μ
  | .null => .null
  | .bool b => .bool b
  | .number n => .number (f n)
  | .string text => .string text
  | .array items => .array (mapItems f items)
  | .object members => .object (mapMembers f members)

def mapItems {μ : Type} (f : ν → μ) : List (Json ν) → List (Json μ)
  | [] => []
  | item :: items => item.mapNumbers f :: mapItems f items

def mapMembers {μ : Type} (f : ν → μ) : List (String × Json ν) → List (String × Json μ)
  | [] => []
  | (name, value) :: members => (name, value.mapNumbers f) :: mapMembers f members

end

end Json

inductive Scalar where
  | count (n : Nat)
  | real (x : Binary64)
  deriving DecidableEq, Repr, Inhabited

namespace Scalar

/-- The literal that is written for a number; a real has the fewest digits that read back. -/
def toLiteral : Scalar → Literal
  | .count n => { negative := false, coefficient := n, exponent := 0, plain := true }
  | .real x =>
    if x.isZero then { negative := x.isNegative, coefficient := 0, exponent := 0, plain := false }
    else
      let d := x.shortest
      { negative := x.isNegative, coefficient := d.coefficient, exponent := d.exponent, plain := false }

end Scalar

end JsonSieve
