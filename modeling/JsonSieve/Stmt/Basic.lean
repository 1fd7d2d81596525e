import JsonSieve.Json.Token
import JsonSieve.Matcher
import JsonSieve.Reason

/-!
# Statements

One language of statements and expressions serves every form that a validator takes on its way from
a constraint to an image; the shape of a frame's body tells the forms apart:

* *tree*: one statement, with nested frames inside (`Stmt`),
* *graph*: blocks that end in branches (`Block`),
* *flat*: one list with a marker in front of each block (`FlatBody`).

A frame checks one JSON value. Counters, bit vectors, matchers, split lists, unique sets, temporaries,
loops and blocks are numbered within their frame; frames are numbered within their program.
-/

namespace JsonSieve

inductive Comparison where
  | ne
  | lt
  | le
  | eq
  | ge
  | gt
  deriving DecidableEq, Repr, Inhabited

namespace Comparison

def all : List Comparison := [.ne, .lt, .le, .eq, .ge, .gt]

def name : Comparison → String
  | .ne => "NE"
  | .lt => "LT"
  | .le => "LE"
  | .eq => "EQ"
  | .ge => "GE"
  | .gt => "GT"

def ofName? (name : String) : Option Comparison := all.find? (·.name = name)

/-- The opposite comparison, for numbers that are ordered. -/
def negate : Comparison → Comparison
  | .ne => .eq
  | .lt => .ge
  | .le => .gt
  | .eq => .ne
  | .ge => .lt
  | .gt => .le

def holds {α : Type} (less same : α → α → Bool) (c : Comparison) (a b : α) : Bool :=
  match c with
  | .ne => !same a b
  | .lt => less a b
  | .le => less a b || same a b
  | .eq => same a b
  | .ge => less b a || same a b
  | .gt => less b a

def nat (c : Comparison) (a b : Nat) : Bool := c.holds (fun a b => decide (a < b)) (· == ·) a b

def word (c : Comparison) (a b : Int64) : Bool := c.holds (fun a b => decide (a < b)) (· == ·) a b

def real (c : Comparison) (a b : Binary64) : Bool := c.holds Binary64.lt Binary64.same a b

end Comparison

mutual

/-- An expression. Expressions read registers and slots; `split` and `unique` look ahead over the
coming value and leave the position as it is. -/
inductive Expr where
  | num (x : Binary64)
  | int (i : Int64)
  | size (n : Nat)
  | bool (b : Bool)
  | tokenKind
  | tokenNumber
  | tokenComplete
  /-- The length of the current token in code points. -/
  | tokenLength
  | isToken (kind : Token.Kind)
  | count (counter : Nat)
  | bitTest (bitvec bit : Nat)
  | bitsAll (bitvec : Nat)
  | bitsAny (bitvec : Nat)
  | bitCount (bitvec : Nat)
  | isInteger (e : Expr)
  /-- The operand divided by the divisor has no fraction. -/
  | isMultiple (e : Expr) (divisor : Binary64)
  | and (a b : Expr)
  | or (a b : Expr)
  | not (e : Expr)
  | compare (c : Comparison) (a b : Expr)
  /-- How many frames of the split list accept the coming value. -/
  | split (split : Nat)
  /-- The case of the current string token. -/
  | matchCase (matcher : Nat)
  /-- Has the coming value not been seen in this activation? -/
  | unique (set : Nat)
  | temp (temp : Nat)
  | seq (s : Stmt) (e : Expr)

inductive Stmt where
  | nop
  | valid
  | invalid (reason : Reason)
  | ite (condition : Expr) (yes no : Stmt)
  | loop (id : Nat) (name : String) (body : Stmt)
  | leave (loop : Nat)
  | seq (list : List Stmt)
  | token
  /-- Skips the rest of the current value. -/
  | consume
  /-- Pushes back the last token. -/
  | untoken
  /-- A nested frame run on the coming value (tree only). -/
  | frame (body : Stmt)
  | counter (id : Nat) (name : String)
  | matcher (id : Nat) (matcher : Matcher)
  | bitvec (id : Nat) (name : String) (size : Nat)
  /-- Frames that `Expr.split` and `Stmt.splitBits` run (tree only). -/
  | splitList (id : Nat) (frames : List Stmt)
  | uniqueSet (id : Nat)
  | bitSet (bitvec bit : Nat)
  | bitClear (bitvec bit : Nat)
  | incr (counter : Nat)
  | decr (counter : Nat)
  /-- Branches on the case of the current string token (tree only). -/
  | dispatch (matcher : Nat) (cases : List (UInt32 × Stmt)) (otherwise : Stmt)
  /-- Runs the frames of a split list; bit `i` tells whether frame `i` accepts. -/
  | splitBits (bitvec split : Nat)
  /-- The beginning of a block (flat only). -/
  | block (id : Nat)
  | branch (target : Nat)
  | branchIf (condition : Expr) (yes no : Nat)
  | move (temp : Nat) (source : Expr)
  | call (frame : Nat)
  /-- Branches on a case in a temporary; an unlisted case without a default is an internal error. -/
  | branchCase (temp : Nat) (cases : List (UInt32 × Nat)) (otherwise : Option Nat)

end

instance : Inhabited Expr := ⟨.bool false⟩

instance : Inhabited Stmt := ⟨.nop⟩

namespace Stmt

def rejectIf (condition : Expr) (reason : Reason) : Stmt := .ite condition (.invalid reason) .nop

def isNop : Stmt → Bool
  | .nop => true
  | _ => false

def isTerminator : Stmt → Bool
  | .valid | .invalid _ | .branch _ | .branchIf .. | .branchCase .. => true
  | _ => false

/-- The blocks to which a terminator can go, in the order of its operands. -/
def successors : Stmt → List Nat
  | .branch target => [target]
  | .branchIf _ yes no => [yes, no]
  | .branchCase _ cases otherwise => cases.map (·.2) ++ otherwise.toList
  | _ => []

end Stmt

structure BitvecDecl where
  name : String
  size : Nat
  deriving DecidableEq, Repr, Inhabited

structure Decls where
  counters : List String := []
  matchers : List Matcher := []
  bitvecs : List BitvecDecl := []
  splits : List (List Nat) := []
  uniques : Nat := 0
  temps : Nat := 0
  deriving DecidableEq, Repr, Inhabited

structure Frame (β : Type) where
  decls : Decls := {}
  body : β
  deriving Inhabited

structure Block where
  id : Nat
  name : String
  stmts : List Stmt
  deriving Inhabited

/-- Statements with a marker in front of each block, and the names of the blocks. -/
structure FlatBody where
  stmts : List Stmt := []
  labels : List String := []
  deriving Inhabited

/-- A program of statement trees; nested frames stay inside. -/
abbrev Tree := List Stmt

/-- A program of block graphs; frame 0 is the entry. -/
abbrev Graph := List (Frame (List Block))

/-- A program of flat bodies; frame 0 is the entry. -/
abbrev Flat := List (Frame FlatBody)

end JsonSieve
