/-!
# Character classes given by ranges

A class of characters is a list of inclusive ranges of code points, in ascending order. The tables of
the classes stand in modules of their own and are written as runs: how many code points are left out, and
how many belong to the class (`CharRanges.ofRuns`). `CharRanges.contains` is membership.
Unions, complements, intersections and differences of such lists are lists of the same kind again.

`CharTree` holds the ranges of a class in a balanced search tree, for tests that are made often.
-/

namespace JsonSieve.Text

/-- Inclusive ranges of code points, in ascending order and without overlap. -/
abbrev CharRanges := List (Nat × Nat)

namespace CharRanges

/-- The ranges of runs from a code point on. Two numbers make a run: how many code points it leaves out, and how
many it takes. -/
def ofRuns (start : Nat) : List Nat → CharRanges
  | skipped :: taken :: rest =>
    let low := start + skipped
    (low, low + taken - 1) :: ofRuns (low + taken) rest
  | _ => []

def containsCode (table : CharRanges) (code : Nat) : Bool :=
  table.any fun (low, high) => decide (low ≤ code) && decide (code ≤ high)

def contains (table : CharRanges) (c : Char) : Bool :=
  table.containsCode c.toNat

def single (c : Char) : CharRanges := [(c.toNat, c.toNat)]

def between (low high : Char) : CharRanges := [(low.toNat, high.toNat)]

/-- Puts the range `low` to `high` in front of later ranges, and joins it to those that it touches. -/
def join (low high : Nat) : CharRanges → CharRanges
  | [] => [(low, high)]
  | (low', high') :: rest =>
    if low' ≤ high + 1 then join low (max high high') rest
    else (low, high) :: join low' high' rest

def ofList (ranges : List (Nat × Nat)) : CharRanges :=
  match ranges.mergeSort fun a b => decide (a.1 ≤ b.1) with
  | [] => []
  | (low, high) :: rest => join low high rest

def union (a b : CharRanges) : CharRanges := ofList (a ++ b)

def maxCode : Nat := 0x10ffff

/-- The code point before `code`; there are none between `0xd7ff` and `0xe000`. -/
def before (code : Nat) : Nat := if code = 0xe000 then 0xd7ff else code - 1

def after (code : Nat) : Nat := if code = 0xd7ff then 0xe000 else code + 1

def gaps (start : Nat) : CharRanges → CharRanges
  | [] => if start ≤ maxCode then [(start, maxCode)] else []
  | (low, high) :: rest =>
    if start < low then (start, before low) :: gaps (after high) rest
    else gaps (after high) rest

def complement (a : CharRanges) : CharRanges := gaps 0 a

def inter (a b : CharRanges) : CharRanges := complement (union (complement a) (complement b))

def diff (a b : CharRanges) : CharRanges := inter a (complement b)

def symmDiff (a b : CharRanges) : CharRanges := union (diff a b) (diff b a)

end CharRanges

inductive CharTree where
  | leaf
  | node (left : CharTree) (low high : Nat) (right : CharTree)
  deriving DecidableEq, Repr, Inhabited

namespace CharTree

def containsCode : CharTree → Nat → Bool
  | .leaf, _ => false
  | .node left low high right, code =>
    if code < low then left.containsCode code
    else if high < code then right.containsCode code
    else true

def contains (t : CharTree) (c : Char) : Bool := t.containsCode c.toNat

/-- A balanced tree of the first `count` ranges, and the ranges behind them. Each level halves the
count, so that `count` is fuel enough. -/
def take : Nat → Nat → CharRanges → CharTree × CharRanges
  | 0, _, ranges => (.leaf, ranges)
  | fuel + 1, count, ranges =>
    if count = 0 then (.leaf, ranges)
    else
      match take fuel (count / 2) ranges with
      | (left, []) => (left, [])
      | (left, (low, high) :: rest) =>
        let (right, rest) := take fuel (count - count / 2 - 1) rest
        (.node left low high right, rest)

def ofRanges (ranges : CharRanges) : CharTree := (take ranges.length ranges.length ranges).1

end CharTree

end JsonSieve.Text
