import JsonSieve.Text.Class.Blank
import JsonSieve.Text.Class.Digit
import JsonSieve.Text.Class.Word

/-!
# Regular expressions

The expressions that name patterns and string patterns are made of, as they are written. How deep
such an expression may nest is limited (`Regex.nestingLimit`).
-/

namespace JsonSieve

open Text (CharRanges)

inductive SetOperation where
  | intersection
  | difference
  | symmetricDifference
  deriving DecidableEq, Repr, Inhabited

def SetOperation.apply : SetOperation → CharRanges → CharRanges → CharRanges
  | .intersection => CharRanges.inter
  | .difference => CharRanges.diff
  | .symmetricDifference => CharRanges.symmDiff

inductive CharSet where
  /-- A character, a range of characters, or a class with a name or an escape of its own. -/
  | plain (ranges : CharRanges)
  | union (items : List CharSet)
  | combined (op : SetOperation) (a b : CharSet)
  | bracketed (negated : Bool) (inner : CharSet)
  deriving Repr, Inhabited

namespace CharSet

def single (c : Char) : CharSet := .plain (.single c)

def ofItems : List CharSet → CharSet
  | [] => .plain []
  | [item] => item
  | items => .union items

mutual

def ranges : CharSet → CharRanges
  | .plain ranges => ranges
  | .union items => .ofList (rangesOf items)
  | .combined op a b => op.apply a.ranges b.ranges
  | .bracketed negated inner =>
    let ranges := CharRanges.ofList inner.ranges
    if negated then ranges.complement else ranges

def rangesOf : List CharSet → List (Nat × Nat)
  | [] => []
  | item :: rest => item.ranges ++ rangesOf rest

end

mutual

/-- How deep brackets, unions and operations nest. -/
def depth : CharSet → Nat
  | .plain _ => 0
  | .union items => depthOf items + 1
  | .combined _ a b => max a.depth b.depth + 1
  | .bracketed _ inner => inner.depth + 1

def depthOf : List CharSet → Nat
  | [] => 0
  | item :: rest => max item.depth (depthOf rest)

end

end CharSet

/-- A condition on a position of the text; it consumes nothing. -/
inductive Guard where
  | start
  | finish
  | wordBoundary
  | notWordBoundary
  | wordStart
  | wordEnd
  /-- No word character before. -/
  | wordStartHalf
  /-- No word character after. -/
  | wordEndHalf
  deriving DecidableEq, Repr, Inhabited

inductive Regex where
  | empty
  | one (set : CharSet)
  | guard (g : Guard)
  | group (captures : Bool) (r : Regex)
  | seq (rs : List Regex)
  | either (rs : List Regex)
  | repeated (r : Regex) (least : Nat) (most : Option Nat) (greedy : Bool)
  deriving Repr, Inhabited

namespace Regex

def ofSequence : List Regex → Regex
  | [] => .empty
  | [r] => r
  | rs => .seq rs

def ofBranches : List Regex → Regex
  | [] => .empty
  | [r] => r
  | rs => .either rs

mutual

/-- How deep groups, repetitions, sequences, choices and bracketed classes nest. -/
def depth : Regex → Nat
  | .empty => 0
  | .one set => set.depth
  | .guard _ => 0
  | .group _ r => r.depth + 1
  | .seq rs => depthOf rs + 1
  | .either rs => depthOf rs + 1
  | .repeated r _ _ _ => r.depth + 1

def depthOf : List Regex → Nat
  | [] => 0
  | r :: rest => max r.depth (depthOf rest)

end

def nestingLimit : Nat := 250

end Regex

end JsonSieve
