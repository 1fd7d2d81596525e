import JsonSieve.Graph.Fold
import JsonSieve.Proofs.Running.Basic

/-!
# Running trees

A structured interpretation of statement trees. Every statement is run by recursion on the tree: a
condition selects a branch, a loop runs its body until a statement inside leaves it, a dispatch selects a
case, a nested frame is a new activation in the same place, and a split runs its frames from where reading
stands and comes back. Only loops need fuel: `steps` is how often the body of a loop may be run.

What a frame declares belongs to the whole frame, wherever in it the declaration stands, except in a branch
that a constant condition excludes.
-/

namespace JsonSieve.Running

inductive Flow where
  | next (σ : State)
  | leave (loop : Nat) (σ : State)

def iterate (loop : Nat) (body : State → Run Flow) : Nat → State → Run Flow
  | 0, _ => .running
  | n + 1, σ => do
    match ← body σ with
    | .next σ => iterate loop body n σ
    | .leave left σ => pure (if left = loop then .next σ else .leave left σ)

/-- The end of an activation. Every frame ends with a verdict. -/
def conclude : Run Flow → Option Outcome
  | .result _ => some .wrong
  | .ends o => some o
  | .running => none

/-- What a part of a frame declares, each thing with its number. -/
structure Declared where
  matchers : List (Nat × Matcher) := []
  bitvecs : List (Nat × Nat) := []
  splits : List (Nat × List (Position → Option Outcome)) := []

namespace Declared

def append (a b : Declared) : Declared :=
  ⟨a.matchers ++ b.matchers, a.bitvecs ++ b.bitvecs, a.splits ++ b.splits⟩

/-- What the statements of a frame refer to, if this is what the frame declares. -/
def setting (d : Declared) : Setting where
  matcher m := d.matchers.lookup m
  size bv := d.bitvecs.lookup bv
  branches i := d.splits.lookup i

end Declared

variable [Regex.Engine]

mutual

def exec (steps : Nat) (e : Setting) : Stmt → State → Run Flow
  | .nop, σ | .counter .., σ | .matcher .., σ | .bitvec .., σ | .splitList .., σ | .uniqueSet _, σ =>
    .result (.next σ)
  | .valid, σ => .ends (.valid σ.position)
  | .invalid reason, σ => .ends (.invalid reason σ.position)
  | .seq list, σ => execAll steps e list σ
  | .ite condition yes no, σ => do
    let (holds, σ) ← test e condition σ
    if holds then exec steps e yes σ else exec steps e no σ
  | .loop id _ body, σ => iterate id (exec steps e body) steps σ
  | .leave loop, σ => .result (.leave loop σ)
  | .frame body, σ => do
    let p ← resume (conclude (exec steps (declared steps body).setting body (.start none σ.position)))
    pure (.next (σ.moveTo p))
  | .dispatch m cases otherwise, σ => do
    let m ← Run.ofOption .wrong (e.matcher m)
    match execCase steps e (caseOf m σ.position.current) cases σ with
    | some run => run
    | none => exec steps e otherwise σ
  | .token, σ => Flow.next <$> act e .token σ
  | .consume, σ => Flow.next <$> act e .consume σ
  | .untoken, σ => Flow.next <$> act e .untoken σ
  | .incr c, σ => Flow.next <$> act e (.incr c) σ
  | .decr c, σ => Flow.next <$> act e (.decr c) σ
  | .bitSet bv n, σ => Flow.next <$> act e (.bitSet bv n) σ
  | .bitClear bv n, σ => Flow.next <$> act e (.bitClear bv n) σ
  | .splitBits bv i, σ => Flow.next <$> act e (.splitBits bv i) σ
  | .block _, _ | .branch _, _ | .branchIf .., _ | .move .., _ | .call _, _ | .branchCase .., _ => .wrong

def execAll (steps : Nat) (e : Setting) : List Stmt → State → Run Flow
  | [], σ => .result (.next σ)
  | s :: rest, σ => do
    match ← exec steps e s σ with
    | .next σ => execAll steps e rest σ
    | .leave loop σ => pure (.leave loop σ)

def execCase (steps : Nat) (e : Setting) (k : UInt32) :
    List (UInt32 × Stmt) → State → Option (Run Flow)
  | [], _ => none
  | (key, s) :: rest, σ => if key = k then some (exec steps e s σ) else execCase steps e k rest σ

def declared (steps : Nat) : Stmt → Declared
  | .matcher id m => { matchers := [(id, m)] }
  | .bitvec id _ size => { bitvecs := [(id, size)] }
  | .splitList id frames => { splits := [(id, branchesOf steps frames)] }
  | .seq list => declaredAll steps list
  | .ite condition yes no =>
    match condition.fold with
    | .bool true => declared steps yes
    | .bool false => declared steps no
    | _ => (declared steps yes).append (declared steps no)
  | .loop _ _ body => declared steps body
  | .dispatch _ cases otherwise => (declaredCases steps cases).append (declared steps otherwise)
  | _ => {}

def declaredAll (steps : Nat) : List Stmt → Declared
  | [] => {}
  | s :: rest => (declared steps s).append (declaredAll steps rest)

def declaredCases (steps : Nat) : List (UInt32 × Stmt) → Declared
  | [] => {}
  | (_, s) :: rest => (declared steps s).append (declaredCases steps rest)

/-- The frames of a split list, each from its beginning to its end. -/
def branchesOf (steps : Nat) : List Stmt → List (Position → Option Outcome)
  | [] => []
  | body :: rest =>
    (fun p => conclude (exec steps (declared steps body).setting body (.start none p))) ::
      branchesOf steps rest

end

/-- Runs a frame: an activation that knows nothing yet, from a position to its outcome. -/
def runTree (steps : Nat) (body : Stmt) (p : Position) : Option Outcome :=
  conclude (exec steps (declared steps body).setting body (.start none p))

end JsonSieve.Running
