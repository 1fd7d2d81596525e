import JsonSieve.Assembly.Basic
import JsonSieve.Liveness
import JsonSieve.Stmt.Listing

/-!
# From flat bodies to assemblies

Every frame becomes a procedure of the same number. Its slots hold, in this order, its counters, its
bit vectors, its unique sets and its temporaries. With liveness known, temporaries of one colour
share a slot; otherwise each has its own.

A condition sets the flag by one instruction; a condition that is negated branches on the clear flag.
The branch to the block that follows is left out.
-/

namespace JsonSieve.Assembly

inductive Item where
  | counter (i : Nat)
  | bitvec (i : Nat)
  | unique (i : Nat)
  | temp (i : Nat)
  | split (i : Nat)
  | matcher (i : Nat)
  deriving DecidableEq, Repr, Inhabited

def Item.name : Item → String
  | .counter i => s!"c{i}"
  | .bitvec i => s!"bv{i}"
  | .unique i => s!"uniq{i}"
  | .temp i => s!"t{i}"
  | .split i => s!"split{i}"
  | .matcher i => s!"dfa{i}"

inductive Defect where
  | missingBranch (frame : Nat)
  | missingCallee (frame : Nat)
  | undeclared (item : Item)
  | sizeTooLarge (n : Nat)
  | notFlat (s : Stmt)
  | notInteger (e : Expr)
  | notCondition (e : Expr)
  | noLabel (block : Nat)
  | neverPlaced (block : Nat)

def Defect.message : Defect → String
  | .missingBranch frame => s!"split list names missing frame{frame}"
  | .missingCallee frame => s!"call to missing frame{frame}"
  | .undeclared item => s!"undeclared {item.name}"
  | .sizeTooLarge n => s!"size literal {n} out of range"
  | .notFlat s => s!"tree statement in flat input: {s.line}"
  | .notInteger e => s!"not an integer operand: {e.listing}"
  | .notCondition e => s!"unsupported branch condition {e.listing}"
  | .noLabel block => s!"b{block} has no label"
  | .neverPlaced block => s!"label b{block} never placed"

/-- Why a flat program has no assembly. -/
inductive Fault where
  /-- Liveness is known for a different number of frames. -/
  | coverage (known frames : Nat)
  | defect (frame : Nat) (defect : Defect)

def Fault.message : Fault → String
  | .coverage known frames => s!"liveness covers {known} frames, program has {frames}"
  | .defect frame d => s!"frame{frame}: {d.message}"

structure Scope where
  decls : Decls
  colours : List Nat
  procs : Nat
  firstMatcher : Nat
  firstSplit : Nat

/-- Assembling adds numbers to the table of numbers. -/
abbrev Assembling := StateT (List Binary64) (Except Defect)

/-- The operand for a number, which enters the table when it is first used. Numbers are told apart by
their bits. -/
def floatOperand (x : Binary64) : Assembling Operand := fun floats =>
  match floats.findIdx? (· = x) with
  | some i => .ok (.float (Word.saturate i), floats)
  | none => .ok (.float (Word.saturate floats.length), floats ++ [x])

namespace Scope

def slotAt (i : Nat) : Operand := .slot (Word.saturate i)

def firstBitvec (s : Scope) : Nat := s.decls.counters.length

def firstUnique (s : Scope) : Nat := s.firstBitvec + s.decls.bitvecs.length

def firstTemp (s : Scope) : Nat := s.firstUnique + s.decls.uniques

def slots (s : Scope) : Nat := s.firstTemp + s.colours.foldl (fun n c => max n (c + 1)) 0

def counter (s : Scope) (c : Nat) : Assembling Operand :=
  if c < s.decls.counters.length then pure (slotAt c) else throw (.undeclared (.counter c))

def bitvec (s : Scope) (bv : Nat) : Assembling Operand :=
  if bv < s.decls.bitvecs.length then pure (slotAt (s.firstBitvec + bv))
  else throw (.undeclared (.bitvec bv))

def unique (s : Scope) (u : Nat) : Assembling Operand :=
  if u < s.decls.uniques then pure (slotAt (s.firstUnique + u))
  else throw (.undeclared (.unique u))

def temp (s : Scope) (t : Nat) : Assembling Operand :=
  match s.colours[t]? with
  | some colour => pure (slotAt (s.firstTemp + colour))
  | none => throw (.undeclared (.temp t))

def split (s : Scope) (i : Nat) : Assembling Operand :=
  if i < s.decls.splits.length then pure (.split (Word.saturate (s.firstSplit + i)))
  else throw (.undeclared (.split i))

def matcher (s : Scope) (m : Nat) : Assembling Operand :=
  if m < s.decls.matchers.length then pure (.matcher (Word.saturate (s.firstMatcher + m)))
  else throw (.undeclared (.matcher m))

def fullMask (size : Nat) : Int64 := if 64 ≤ size then -1 else Int64.ofNat (Nat.pow 2 size - 1)

def size (n : Nat) : Assembling Operand :=
  if n < Nat.pow 2 63 then pure (.int (Int64.ofNat n)) else throw (.sizeTooLarge n)

def intOperand (s : Scope) : Expr → Assembling Operand
  | .size n => size n
  | .int i => pure (.int i)
  | .bool b => pure (.int (if b then 1 else 0))
  | .count c => s.counter c
  | .temp t => s.temp t
  | .tokenKind => pure (.register .tokenKind)
  | .tokenLength => pure (.register .tokenLength)
  | .tokenComplete => pure (.register .tokenComplete)
  | e => throw (.notInteger e)

def numOperand (s : Scope) : Expr → Assembling Operand
  | .num x => floatOperand x
  | .tokenNumber => pure (.register .tokenNumber)
  | e => s.intOperand e

def isReal : Expr → Bool
  | .num _ => true
  | .tokenNumber => true
  | _ => false

/-- The instruction that sets the flag for a condition, and whether a set flag means that the
condition holds. -/
def condition (s : Scope) : Expr → Assembling (Op × Bool)
  | .not e => do
    let (op, sense) ← s.condition e
    pure (op, !sense)
  | .compare c a b =>
    if isReal a || isReal b then do
      let a ← s.numOperand a
      let b ← s.numOperand b
      pure (⟨.compareReals c, a, b⟩, true)
    else do
      let a ← s.intOperand a
      let b ← s.intOperand b
      pure (⟨.compareWords c, a, b⟩, true)
  | .isToken kind =>
    pure (⟨.compareWords .eq, .register .tokenKind, .int (Int64.ofNat kind.code)⟩, true)
  | .isInteger e => do
    let a ← s.numOperand e
    let one ← floatOperand .one
    pure (⟨.divides, a, one⟩, true)
  | .isMultiple e d => do
    let a ← s.numOperand e
    let d ← floatOperand d
    pure (⟨.divides, a, d⟩, true)
  | .bitTest bv bit => do
    let slot ← s.bitvec bv
    pure (⟨.bitTest, slot, .int (Int64.ofNat bit)⟩, true)
  | .bitsAll bv => do
    let slot ← s.bitvec bv
    let width := (s.decls.bitvecs[bv]?.map (·.size)).getD 0
    pure (⟨.compareWords .eq, slot, .int (fullMask width)⟩, true)
  | .bitsAny bv => do
    let slot ← s.bitvec bv
    pure (⟨.compareWords .ne, slot, .int 0⟩, true)
  | .unique u => do
    let slot ← s.unique u
    pure (⟨.unique, slot, .none⟩, true)
  | .bool b => pure (⟨.compareWords .ne, .int (if b then 1 else 0), .int 0⟩, true)
  | .temp t => do
    let slot ← s.temp t
    pure (⟨.compareWords .ne, slot, .int 0⟩, true)
  | .tokenComplete => pure (⟨.compareWords .ne, .register .tokenComplete, .int 0⟩, true)
  | e => throw (.notCondition e)

def moveInto (s : Scope) (slot : Operand) : Expr → Assembling (List Op)
  | .split i => do
    let list ← s.split i
    pure [⟨.split, list, slot⟩]
  | .matchCase m => do
    let matcher ← s.matcher m
    pure [⟨.matchCase, matcher, .none⟩, ⟨.move, slot, .register .matchCase⟩]
  | .bitCount bv => do
    let source ← s.bitvec bv
    pure [⟨.bitCount, slot, source⟩]
  | e => do
    let source ← s.intOperand e
    pure [⟨.move, slot, source⟩]

def label (block : Nat) : Operand := .label (Word.saturate block)

def returnOp (code : Int64) : Op := ⟨.ret, .int code, .none⟩

def flagBranches (next : Option Nat) (onSet onClear : Nat) : List Op :=
  if some onClear = next then [⟨.branchIfSet, label onSet, .none⟩]
  else if some onSet = next then [⟨.branchIfClear, label onClear, .none⟩]
  else [⟨.branchIfSet, label onSet, .none⟩, ⟨.branch, label onClear, .none⟩]

def caseBranches (slot : Operand) (cases : List (UInt32 × Nat)) : List Op :=
  (cases.mergeSort fun a b => a.1 ≤ b.1).flatMap fun (k, block) =>
    [⟨.compareWords .eq, slot, .int (Int64.ofNat k.toNat)⟩, ⟨.branchIfSet, label block, .none⟩]

/-- The instructions of a statement, where `next` is the block that follows. -/
def stmt (s : Scope) (next : Option Nat) : Stmt → Assembling (List Op)
  | .nop => pure []
  | .valid => pure [returnOp 0]
  | .invalid reason => pure [returnOp reason.word]
  | .token => pure [⟨.token, .none, .none⟩]
  | .consume => pure [⟨.consume, .none, .none⟩]
  | .untoken => pure [⟨.untoken, .none, .none⟩]
  | .incr c => do
    let slot ← s.counter c
    pure [⟨.incr, slot, .none⟩]
  | .decr c => do
    let slot ← s.counter c
    pure [⟨.decr, slot, .none⟩]
  | .bitSet bv bit => do
    let slot ← s.bitvec bv
    pure [⟨.bitSet, slot, .int (Int64.ofNat bit)⟩]
  | .bitClear bv bit => do
    let slot ← s.bitvec bv
    pure [⟨.bitClear, slot, .int (Int64.ofNat bit)⟩]
  | .splitBits bv i => do
    let list ← s.split i
    let slot ← s.bitvec bv
    pure [⟨.splitBits, list, slot⟩]
  | .call frame =>
    if frame < s.procs then pure [⟨.call, .proc (Word.saturate frame), .none⟩]
    else throw (.missingCallee frame)
  | .branch target => pure [⟨.branch, label target, .none⟩]
  | .move t source => do
    let slot ← s.temp t
    s.moveInto slot source
  | .branchIf e yes no => do
    let (op, sense) ← s.condition e
    let (onSet, onClear) := if sense then (yes, no) else (no, yes)
    pure (op :: flagBranches next onSet onClear)
  | .branchCase t cases otherwise => do
    let slot ← s.temp t
    let last : Op := match otherwise with
      | some block => ⟨.branch, label block, .none⟩
      | none => returnOp Reason.invalidMatchCase.word
    pure (caseBranches slot cases ++ [last])
  | st => throw (.notFlat st)

end Scope

/-- The instructions of a body so far, where each block begins, and the block that follows. -/
structure Placed where
  ops : Array Op := #[]
  labels : List (Option Nat)
  next : Option Nat := none

/-- The block behind the first marker of a block. -/
def following (order : List Nat) (block : Nat) : Option Nat :=
  match order.findIdx? (· = block) with
  | some i => order[i + 1]?
  | none => none

def place (s : Scope) (order : List Nat) (p : Placed) : Stmt → Assembling Placed
  | .block id =>
    if id < p.labels.length then
      pure { p with labels := p.labels.set id (some p.ops.size), next := following order id }
    else throw (.noLabel id)
  | st => do
    let ops ← s.stmt p.next st
    pure { p with ops := p.ops ++ ops }

def markers (stmts : List Stmt) : List Nat :=
  stmts.filterMap fun
    | .block id => some id
    | _ => none

def procedure (s : Scope) (body : FlatBody) : Assembling Procedure := do
  let order := markers body.stmts
  let size := max body.labels.length order.length
  let placed ← body.stmts.foldlM (place s order) { labels := List.replicate size none }
  match placed.labels.findIdx? (·.isNone) with
  | some b => throw (.neverPlaced b)
  | none =>
    pure ⟨Word.saturate s.slots, placed.ops.toList, placed.labels.filterMap id⟩

def addFrame (procs : Nat) (a : Assembly) (f : Frame FlatBody) (colours : List Nat) :
    Except Defect Assembly :=
  match f.decls.splits.findSome? fun list => list.find? fun frame => !decide (frame < procs) with
  | some frame => .error (.missingBranch frame)
  | none => do
    let scope : Scope := {
      decls := f.decls, colours, procs
      firstMatcher := a.matchers.length, firstSplit := a.splits.length }
    let (proc, floats) ← procedure scope f.body a.floats
    pure {
      procs := a.procs ++ [proc], floats
      matchers := a.matchers ++ f.decls.matchers
      splits := a.splits ++ f.decls.splits.map fun list => list.map Word.saturate }

/-- The colours of the temporaries of frame `i`. Without liveness every temporary has its own. -/
def coloursOf (facts : Option (List Liveness.FrameFacts)) (i temps : Nat) : List Nat :=
  match facts with
  | none => List.range temps
  | some facts => ((facts[i]?).getD {}).colours temps

/-- The assembly of a flat program, with what is known about the liveness of its frames. -/
def ofFlat (program : Flat) (facts : Option (List Liveness.FrameFacts)) :
    Except Fault Assembly :=
  match facts with
  | some known =>
    if known.length = program.length then assembled else .error (.coverage known.length program.length)
  | none => assembled
where
  assembled : Except Fault Assembly :=
    program.zipIdx.foldlM (fun a (f, i) =>
      (addFrame program.length a f (coloursOf facts i f.decls.temps)).mapError (.defect i)) ⟨[], [], [], []⟩

end JsonSieve.Assembly
