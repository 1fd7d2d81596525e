import JsonSieve.Regex.Basic
import JsonSieve.Text.Utf8

/-!
# Simplified expressions

`Regex.form` brings an expression into a simpler form with the same matches: classes become ranges,
neighbouring characters a text, nested sequences and choices are joined, a choice between classes
becomes a class, and what all branches of a choice begin with is taken out of it. The form is what is
searched for and what the size of the automata is measured on.

The functions `Form.ofRanges`, `Form.repetition`, `Form.sequence` and `Form.choice` build forms; they
take simplified parts and give a simplified whole.
-/

namespace JsonSieve

open Text (CharRanges)

inductive Form where
  | empty
  /-- Some characters, at least one. -/
  | text (chars : List Char)
  /-- One character of a class, which is empty or has at least two. -/
  | oneOf (ranges : CharRanges)
  | guard (g : Guard)
  | repeated (r : Form) (least : Nat) (most : Option Nat) (greedy : Bool)
  | group (r : Form)
  | seq (rs : List Form)
  | either (rs : List Form)
  deriving Repr, Inhabited

namespace Form

def byteLength (chars : List Char) : Nat := chars.foldl (fun n c => n + (Utf8.encode c).length) 0

def codeLength (code : Nat) : Nat :=
  if code < 0x80 then 1 else if code < 0x800 then 2 else if code < 0x10000 then 3 else 4

def isAnchor (atEnd : Bool) (g : Guard) : Bool := g = if atEnd then .finish else .start

mutual

/-- The least number of bytes of a match; nothing if there are no matches. -/
def shortest : Form → Option Nat
  | .empty => some 0
  | .text chars => some (byteLength chars)
  | .oneOf ranges => ranges.head?.map fun r => codeLength r.1
  | .guard _ => some 0
  | .repeated r least _ _ => r.shortest.map (· * least)
  | .group r => r.shortest
  | .seq rs => shortestSeq rs
  | .either rs => shortestEither rs

def shortestSeq : List Form → Option Nat
  | [] => some 0
  | r :: rest => do pure ((← r.shortest) + (← shortestSeq rest))

/-- The least number of bytes of a choice, all of whose branches have matches. -/
def shortestEither : List Form → Option Nat
  | [] => none
  | [r] => r.shortest
  | r :: rest => do pure (min (← r.shortest) (← shortestEither rest))

end

mutual

def isEmpty : Form → Bool
  | .empty => true
  | .text _ => false
  | .oneOf _ => false
  | .guard _ => true
  | .repeated r _ most _ => most.isSome && (r.isEmpty || most == some 0)
  | .group r => r.isEmpty
  | .seq rs => areEmpty rs
  | .either rs => areEmpty rs

def areEmpty : List Form → Bool
  | [] => true
  | r :: rest => r.isEmpty && areEmpty rest

end

mutual

/-- Are two forms written the same? Groups are numbered, so that no two of them are. -/
def same : Form → Form → Bool
  | .empty, .empty => true
  | .text a, .text b => a == b
  | .oneOf a, .oneOf b => a == b
  | .guard a, .guard b => a == b
  | .repeated a least most greedy, .repeated b least' most' greedy' =>
    a.same b && least == least' && most == most' && greedy == greedy'
  | .seq as, .seq bs => sameAll as bs
  | .either as, .either bs => sameAll as bs
  | _, _ => false

def sameAll : List Form → List Form → Bool
  | [], [] => true
  | a :: as, b :: bs => a.same b && sameAll as bs
  | _, _ => false

end

mutual

def weight : Form → Nat
  | .repeated r _ _ _ => r.weight + 1
  | .group r => r.weight + 1
  | .seq rs => weightAll rs + 1
  | .either rs => weightAll rs + 1
  | _ => 1

def weightAll : List Form → Nat
  | [] => 0
  | r :: rest => r.weight + weightAll rest

end

/-! ## Building forms -/

/-- One character of a class; a class of one character is a text. -/
def ofRanges : CharRanges → Form
  | [(low, high)] => if low = high then .text [Char.ofNat low] else .oneOf [(low, high)]
  | ranges => .oneOf ranges

/-- A repetition. What matches nothing but the empty text need not be repeated more than once. -/
def repetition (r : Form) (least : Nat) (most : Option Nat) (greedy : Bool) : Form :=
  let (least, most) :=
    if r.isEmpty then (min least 1, some (min (most.getD 1) 1)) else (least, most)
  if least = 0 ∧ most = some 0 then .empty
  else if least = 1 ∧ most = some 1 then r
  else .repeated r least most greedy

/-- Puts a form in front of a sequence: empty forms vanish and texts are joined. -/
def prepend (r : Form) (rest : List Form) : List Form :=
  match r, rest with
  | .empty, rest => rest
  | .text a, .text b :: rest => .text (a ++ b) :: rest
  | r, rest => r :: rest

def parts : Form → List Form
  | .seq rs => rs
  | r => [r]

def sequence (rs : List Form) : Form :=
  match (rs.flatMap parts).foldr prepend [] with
  | [] => .empty
  | [r] => r
  | rs => .seq rs

def branches : Form → List Form
  | .either rs => rs
  | r => [r]

def character? : Form → Option Char
  | .text [c] => some c
  | _ => none

def class? : Form → Option CharRanges
  | .oneOf ranges => some ranges
  | _ => none

/-- The class that a choice amounts to, if its branches are all single characters or all classes. -/
def choiceClass? (rs : List Form) : Option CharRanges :=
  match rs.mapM character? with
  | some chars => some (.ofList (chars.map fun c => (c.toNat, c.toNat)))
  | none => (rs.mapM class?).map fun classes => .ofList classes.flatten

def sequence? : Form → Option (List Form)
  | .seq rs => some rs
  | _ => none

def commonLength : List Form → List Form → Nat
  | a :: as, b :: bs => if a.same b then commonLength as bs + 1 else 0
  | _, _ => 0

/-- How many forms all branches begin with alike, if they are all sequences. -/
def commonPrefix (rs : List Form) : Nat :=
  match rs.mapM sequence? with
  | some (first :: others) =>
    others.foldl (fun n other => min n (commonLength (first.take n) other)) first.length
  | _ => 0

/-- A choice. Every round takes out at least one form that all branches begin with, so that the weight
of the branches is fuel enough. -/
def choiceWithin : Nat → List Form → Form
  | fuel, rs =>
    match rs.flatMap branches with
    | [] => .oneOf []
    | [r] => r
    | rs =>
      match choiceClass? rs with
      | some ranges => ofRanges ranges
      | none =>
        match fuel, commonPrefix rs, rs with
        | fuel + 1, n + 1, first :: _ =>
          let rests := rs.map fun r => sequence (r.parts.drop (n + 1))
          sequence (first.parts.take (n + 1) ++ [choiceWithin fuel rests])
        | _, _, rs => .either rs

def choice (rs : List Form) : Form := choiceWithin (weightAll rs) rs

/-! ## Anchors -/

mutual

/-- Does every match begin at the start of the text, or end at its end? -/
def isAnchored (atEnd : Bool) : Form → Bool
  | .guard g => isAnchor atEnd g
  | .repeated r least _ _ => decide (0 < least) && r.isAnchored atEnd
  | .group r => r.isAnchored atEnd
  | .seq rs => if atEnd then lastAnchored rs else firstAnchored rs
  | .either rs => allAnchored atEnd rs
  | _ => false

def firstAnchored : List Form → Bool
  | [] => false
  | r :: rest => r.isAnchored false || (r.isEmpty && firstAnchored rest)

def lastAnchored : List Form → Bool
  | [] => false
  | r :: rest => lastAnchored rest || (areEmpty rest && r.isAnchored true)

def allAnchored (atEnd : Bool) : List Form → Bool
  | [] => true
  | r :: rest => r.isAnchored atEnd && allAnchored atEnd rest

end

end Form

namespace Regex

mutual

def form : Regex → Form
  | .empty => .empty
  | .one set => .ofRanges set.ranges
  | .guard g => .guard g
  | .group captures r => if captures then .group r.form else r.form
  | .seq rs => .sequence (forms rs)
  | .either rs => .choice (forms rs)
  | .repeated r least most greedy => .repetition r.form least most greedy

def forms : List Regex → List Form
  | [] => []
  | r :: rest => r.form :: forms rest

end

end Regex

end JsonSieve
