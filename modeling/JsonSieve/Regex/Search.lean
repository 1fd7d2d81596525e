import JsonSieve.Regex.Form

/-!
# Searching a text

A `Scan` is an expression with marks: a mark on a character says that a match in progress has just
read it there. Reading the next character moves all marks at once (`Scan.shift`). Whether a guard holds
depends on the characters around the position, so that all questions about a scan are asked at a
`Place`. A text contains a match when at some place a mark stands at the end of the expression
(`Scan.atEnd`), or the expression matches the empty text there (`Scan.skips`).

A repetition of a single class keeps its marks as a set of counts, which is a natural number whose bit
`n` says that `n` characters have been read; other repetitions are written out.
-/

namespace JsonSieve

open Text (CharTree)

/-- A position of a text, given by the characters around it. -/
structure Place where
  before : Option Char
  after : Option Char
  deriving DecidableEq, Repr, Inhabited

namespace Place

def afterWord (p : Place) : Bool := p.before.any Text.isWord

def beforeWord (p : Place) : Bool := p.after.any Text.isWord

end Place

def Guard.holds (p : Place) : Guard → Bool
  | .start => p.before.isNone
  | .finish => p.after.isNone
  | .wordBoundary => p.afterWord != p.beforeWord
  | .notWordBoundary => p.afterWord == p.beforeWord
  | .wordStart => !p.afterWord && p.beforeWord
  | .wordEnd => p.afterWord && !p.beforeWord
  | .wordStartHalf => !p.afterWord
  | .wordEndHalf => !p.beforeWord

/-- An expression with marks. Compound expressions know whether there is a mark in them. -/
inductive Scan where
  | empty
  | char (set : CharTree) (marked : Bool)
  /-- From `least` to `most` characters of a class, and how many have been read. -/
  | run (set : CharTree) (least most : Nat) (counts : Nat)
  | guard (g : Guard)
  | seq (marked : Bool) (a b : Scan)
  | either (marked : Bool) (a b : Scan)
  /-- One or more times. -/
  | many (marked : Bool) (r : Scan)
  deriving DecidableEq, Repr, Inhabited

namespace Scan

def marked : Scan → Bool
  | .empty => false
  | .char _ marked => marked
  | .run _ _ _ counts => counts != 0
  | .guard _ => false
  | .seq marked _ _ => marked
  | .either marked _ _ => marked
  | .many marked _ => marked

def andThen (a b : Scan) : Scan := .seq (a.marked || b.marked) a b

def orElse (a b : Scan) : Scan := .either (a.marked || b.marked) a b

def oneOrMore (r : Scan) : Scan := .many r.marked r

def optional (r : Scan) : Scan := .orElse .empty r

def skips (p : Place) : Scan → Bool
  | .empty => true
  | .char _ _ => false
  | .run _ least _ _ => least == 0
  | .guard g => g.holds p
  | .seq _ a b => a.skips p && b.skips p
  | .either _ a b => a.skips p || b.skips p
  | .many _ r => r.skips p

def atEnd (p : Place) : Scan → Bool
  | .empty => false
  | .char _ marked => marked
  | .run _ least _ counts => decide (Nat.pow 2 least ≤ counts)
  | .guard _ => false
  | .seq marked a b => marked && (b.atEnd p || (a.atEnd p && b.skips p))
  | .either marked a b => marked && (a.atEnd p || b.atEnd p)
  | .many marked r => marked && r.atEnd p

/-- Reads the character `c`, which stands after the place `p`; `enter` says whether a match may enter
the expression there. -/
def shift (p : Place) (c : Char) : Bool → Scan → Scan
  | _, .empty => .empty
  | enter, .char set _ => .char set (enter && set.contains c)
  | enter, .run set least most counts =>
    if (enter || counts != 0) && set.contains c then
      .run set least most ((counts * 2 + if enter then 2 else 0) % Nat.pow 2 (most + 1))
    else .run set least most 0
  | _, .guard g => .guard g
  | enter, .seq marked a b =>
    if enter || marked then
      (shift p c enter a).andThen (shift p c ((enter && a.skips p) || a.atEnd p) b)
    else .seq marked a b
  | enter, .either marked a b =>
    if enter || marked then (shift p c enter a).orElse (shift p c enter b)
    else .either marked a b
  | enter, .many marked r =>
    if enter || marked then oneOrMore (shift p c (enter || r.atEnd p) r)
    else .many marked r

/-- Does a match end between the characters read so far and the rest of the text? The last character
read is `before`. -/
def find (before : Option Char) (s : Scan) : List Char → Bool
  | [] =>
    let p : Place := ⟨before, none⟩
    s.atEnd p || s.skips p
  | c :: rest =>
    let p : Place := ⟨before, some c⟩
    s.atEnd p || s.skips p || find (some c) (s.shift p c true) rest

/-! ## Preparing a form -/

/-- The expression `n + 1` times in a row, as a balanced tree. Each level halves the number, so that
`n` is fuel enough. -/
def times (r : Scan) : Nat → Nat → Scan
  | 0, _ => r
  | fuel + 1, n =>
    if n = 0 then r
    else (times r fuel ((n - 1) / 2)).andThen (times r fuel (n - 1 - (n - 1) / 2))

def power (r : Scan) : Nat → Scan
  | 0 => .empty
  | n + 1 => times r n n

/-- Expressions one after another, as a balanced tree. Each level halves the list, so that its length is
fuel enough. -/
def inRow : Nat → List Scan → Scan
  | _, [] => .empty
  | _, [r] => r
  | 0, _ => .empty
  | fuel + 1, rs =>
    let half := rs.length / 2
    (inRow fuel (rs.take half)).andThen (inRow fuel (rs.drop half))

def repetition (r : Scan) (least : Nat) : Option Nat → Scan
  | some most => (power r least).andThen (power r.optional (most - least))
  | none =>
    match least with
    | 0 => r.oneOrMore.optional
    | n + 1 => (power r n).andThen r.oneOrMore

def repeatedClass (set : CharTree) (least : Nat) : Option Nat → Scan
  | some most => .run set least most 0
  | none =>
    match least with
    | 0 => (oneOrMore (.char set false)).optional
    | n + 1 => (run set n n 0).andThen (oneOrMore (.char set false))

end Scan

namespace Form

def toClass? : Form → Option CharTree
  | .text [c] => some (.ofRanges (.single c))
  | .oneOf ranges => some (.ofRanges ranges)
  | _ => none

mutual

def scan : Form → Scan
  | .empty => .empty
  | .text chars => .inRow chars.length (chars.map fun c => .char (.ofRanges (.single c)) false)
  | .oneOf ranges => .char (.ofRanges ranges) false
  | .guard g => .guard g
  | .repeated r least most _ =>
    match r.toClass? with
    | some set => .repeatedClass set least most
    | none => .repetition r.scan least most
  | .group r => r.scan
  | .seq rs => .inRow rs.length (scans rs)
  | .either rs => (scans rs).foldr .orElse (.char .leaf false)

def scans : List Form → List Scan
  | [] => []
  | r :: rest => r.scan :: scans rest

end

end Form

def Scan.isMatch (s : Scan) (text : String) : Bool := s.find none text.toList

def Form.isMatch (f : Form) (text : String) : Bool := f.scan.isMatch text

end JsonSieve
