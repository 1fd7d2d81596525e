import JsonSieve.Image.Basic

/-!
# From assemblies to images

Procedures stand one after another in the order of the table, and every block gets the address of its
first instruction.
-/

namespace JsonSieve.Image

inductive Unresolved where
  | label (i : UInt32)
  | address
  | proc (i : UInt32)
  | split (i : UInt32)
  | matcher (i : UInt32)
  | float (i : UInt32)
  deriving DecidableEq, Repr, Inhabited

def Unresolved.message : Unresolved → String
  | .label i => s!"unresolved label b{i}"
  | .address => "absolute address in op program"
  | .proc i => s!"call to missing proc {i}"
  | .split i => s!"missing split list {i}"
  | .matcher i => s!"missing dfa {i}"
  | .float i => s!"missing float {i}"

inductive Fault where
  | tooLong
  | unresolved (proc : Nat) (operand : Unresolved)
  deriving DecidableEq, Repr, Inhabited

def Fault.message : Fault → String
  | .tooLong => "instruction stream exceeds u32 addressing"
  | .unresolved proc operand => s!"proc{proc}: {operand.message}"

def address (i : Nat) : Except Fault UInt32 :=
  match Word.ofNat? i with
  | some word => .ok word
  | none => .error .tooLong

def entries (start : Nat) : List Procedure → Except Fault (List ProcEntry)
  | [] => .ok []
  | p :: rest => do
    let entry ← address start
    let others ← entries (start + p.ops.length) rest
    pure (⟨p.slots, entry⟩ :: others)

/-- Gives a block its address and checks that tables have the entries that are named; `i` is the
number of the procedure and `start` its first instruction. -/
def resolve (a : Assembly) (i start : Nat) (p : Procedure) : Operand → Except Fault Operand
  | .label b =>
    match p.labels[b.toNat]? with
    | some place =>
      if place < p.ops.length then .address <$> address (start + place)
      else .error (.unresolved i (.label b))
    | none => .error (.unresolved i (.label b))
  | .address _ => .error (.unresolved i .address)
  | .proc k =>
    if k.toNat < a.procs.length then .ok (.proc k) else .error (.unresolved i (.proc k))
  | .split k =>
    if k.toNat < a.splits.length then .ok (.split k) else .error (.unresolved i (.split k))
  | .matcher k =>
    if k.toNat < a.matchers.length then .ok (.matcher k) else .error (.unresolved i (.matcher k))
  | .float k =>
    if k.toNat < a.floats.length then .ok (.float k) else .error (.unresolved i (.float k))
  | o => .ok o

def resolveOp (a : Assembly) (i start : Nat) (p : Procedure) (op : Op) : Except Fault Op := do
  let x ← resolve a i start p op.a
  let y ← resolve a i start p op.b
  pure ⟨op.code, x, y⟩

/-- The instructions of procedures, the first of which has number `i` and begins at `start`. -/
def resolveProcs (a : Assembly) (i start : Nat) : List Procedure → Except Fault (List Op)
  | [] => .ok []
  | p :: rest => do
    let ops ← p.ops.mapM (resolveOp a i start p)
    let others ← resolveProcs a (i + 1) (start + p.ops.length) rest
    pure (ops ++ others)

def ofAssembly (a : Assembly) : Except Fault Image := do
  let procs ← entries 0 a.procs
  let ops ← resolveProcs a 0 0 a.procs
  let last : Op := { code := .finish }
  pure {
    procs, floats := a.floats, matchers := a.matchers, splits := a.splits
    code := (ops ++ [last]).flatMap Op.encode }

end JsonSieve.Image
