import JsonSieve.Constraint.Basic
import JsonSieve.Number.Word
import JsonSieve.Regex.Engine
import JsonSieve.Text.Quoted

/-!
# Matchers

A matcher recognizes a fixed list of name patterns. Several patterns can match one name, so programs
branch on *cases*: sets of patterns that a name can match. Only two kinds of sets are listed, so that
the table grows with the number of patterns: each literal together with the expressions that match it,
and each expression alone. Cases are numbered from one; a name whose set is not listed has case zero.

`Matcher` is the description that images store, `Recognizer` its prepared form. Each expression is prepared
on its own when a matcher is built from it; a recognizer searches for all of its expressions at once.
-/

namespace JsonSieve

/-- A regular expression that cannot be prepared. -/
structure BadPattern where
  source : String
  deriving DecidableEq, Repr, Inhabited

def BadPattern.message (e : BadPattern) : String := s!"invalid pattern {Text.quoted e.source}: "

structure Matcher where
  patterns : List NamePattern
  /-- Entry `k` holds the indices of the patterns of case `k + 1`, in ascending order. -/
  cases : List (List UInt32)
  deriving DecidableEq, Repr, Inhabited

def lastIndex? {α : Type} (p : α → Bool) : List α → Option Nat
  | [] => none
  | a :: rest =>
    match lastIndex? p rest with
    | some i => some (i + 1)
    | none => if p a then some 0 else none

def insertIndex (i : UInt32) : List UInt32 → List UInt32
  | [] => [i]
  | j :: rest => if i ≤ j then i :: j :: rest else j :: insertIndex i rest

namespace Matcher

/-- The case of a name that no listed set fits. -/
def noMatch : UInt32 := 0

/-- The regular expressions among patterns that are counted from `start`, with their indices. -/
def expressions (start : Nat) : List NamePattern → List (UInt32 × String)
  | [] => []
  | .literal _ :: rest => expressions (start + 1) rest
  | .regex source :: rest => (Word.saturate start, source) :: expressions (start + 1) rest

def compileEach [Regex.Engine] :
    List (UInt32 × String) → Except BadPattern (List (UInt32 × (String → Bool)))
  | [] => .ok []
  | (i, source) :: rest =>
    match Regex.Engine.compile? source with
    | none => .error ⟨source⟩
    | some isMatch => ((i, isMatch) :: ·) <$> compileEach rest

def matching (compiled : List (UInt32 × (String → Bool))) (name : String) : List UInt32 :=
  (compiled.filter fun (_, isMatch) => isMatch name).map (·.1)

def literalCases (compiled : List (UInt32 × (String → Bool))) (start : Nat) :
    List NamePattern → List (List UInt32)
  | [] => []
  | .literal name :: rest =>
    insertIndex (Word.saturate start) (matching compiled name)
      :: literalCases compiled (start + 1) rest
  | .regex _ :: rest => literalCases compiled (start + 1) rest

/-- The matcher of a list of patterns; of equal patterns the first is kept. -/
def build [Regex.Engine] (patterns : List NamePattern) : Except BadPattern Matcher := do
  let patterns := patterns.eraseDups
  let compiled ← compileEach (expressions 0 patterns)
  let cases := literalCases compiled 0 patterns ++ compiled.map fun (i, _) => [i]
  .ok { patterns, cases := cases.eraseDups }

def indexOf? (m : Matcher) (pattern : NamePattern) : Option UInt32 :=
  (m.patterns.findIdx? (· = pattern)).map Word.saturate

def patternsAt (m : Matcher) (indices : List UInt32) : List NamePattern :=
  indices.filterMap fun i => m.patterns[i.toNat]?

def isLiteral (m : Matcher) (index : Nat) : Bool :=
  match m.patterns[index]? with
  | some (.literal _) => true
  | _ => false

end Matcher

structure Recognizer where
  literals : List (String × UInt32)
  /-- The indices of the expressions in the order in which they are searched for. -/
  indices : List UInt32
  search : String → Nat → Bool
  cases : List (List UInt32)
  deriving Inhabited

namespace Matcher

def literals (start : Nat) : List NamePattern → List (String × UInt32)
  | [] => []
  | .literal name :: rest => (name, Word.saturate start) :: literals (start + 1) rest
  | .regex _ :: rest => literals (start + 1) rest

def sources (m : Matcher) : List String := (expressions 0 m.patterns).map (·.2)

def recognizerWith (m : Matcher) (search : String → Nat → Bool) : Recognizer where
  literals := literals 0 m.patterns
  indices := (expressions 0 m.patterns).map (·.1)
  search := search
  cases := m.cases

def recognizer [Regex.Engine] (m : Matcher) : Except Regex.Error Recognizer :=
  (Regex.Engine.compileSet m.sources).map m.recognizerWith

end Matcher

namespace Recognizer

/-- The index of a literal; of equal literals the last counts. -/
def literal? (r : Recognizer) (name : String) : Option UInt32 :=
  (lastIndex? (·.1 = name) r.literals).bind fun i => (r.literals[i]?).map (·.2)

/-- The expressions that match a name, in ascending order. -/
def searched (r : Recognizer) (name : String) : List UInt32 :=
  (r.indices.zipIdx.filter fun e => r.search name e.2).map (·.1)

/-- The patterns that match a name, in ascending order. -/
def matching (r : Recognizer) (name : String) : List UInt32 :=
  match r.literal? name with
  | some i => insertIndex i (r.searched name)
  | none => r.searched name

def caseOf (r : Recognizer) (name : String) : UInt32 :=
  let found := r.matching name
  if found.isEmpty then Matcher.noMatch
  else
    match lastIndex? (· = found) r.cases with
    | some k => Word.saturate (k + 1)
    | none => Matcher.noMatch

end Recognizer

end JsonSieve
