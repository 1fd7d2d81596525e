import JsonSieve.Json.Canonical
import JsonSieve.Json.Lexer
import JsonSieve.Machine.Executable
import JsonSieve.Trace.Event

/-!
# The state of a run

A machine runs an executable over the tokens of a text. It keeps its activations as a list, so that
it can stop wherever the text at hand ends and go on later. Tokens that may be read again are kept in a
buffer: those of the splits in progress, and the last one.
-/

namespace JsonSieve

inductive Verdict where
  | valid
  | invalid (reason : Reason)
  deriving DecidableEq, Repr, Inhabited

structure Activation where
  proc : UInt32
  pc : Nat
  slots : Array Int64
  seen : List (UInt32 × ValueSet) := []

/-- A split in progress: its branches run one after another from the same place. -/
structure Split where
  split : UInt32
  branch : Nat := 0
  /-- Does it collect the bits of the branches that accept, or count them? -/
  bits : Bool
  target : UInt32
  /-- The number of activations below the branches. -/
  depth : Nat
  cursor : Nat
  token : Token
  lastCase : Int64
  result : Int64 := 0

structure Machine where
  input : Lexer := Lexer.empty
  meter : Meter := .free
  /-- The activations, the current one first. -/
  frames : List Activation := []
  /-- The splits in progress, the innermost first. -/
  splits : List Split := []
  buffer : Array Token := #[]
  /-- The place in the buffer of the next token to be read. -/
  cursor : Nat := 0
  current : Token := .none
  lastCase : Int64 := 0
  flag : Bool := false
  /-- The containers that remain to be closed by an unfinished skip. -/
  skipDepth : Nat := 0
  started : Bool := false
  verdict : Option Verdict := none

namespace Machine

def depth (m : Machine) : Nat := m.frames.length

def mapTop (f : Activation → Activation) (m : Machine) : Machine :=
  match m.frames with
  | [] => m
  | top :: rest => { m with frames := f top :: rest }

def advance (m : Machine) : Machine := m.mapTop fun a => { a with pc := a.pc + 1 }

def goTo (pc : Nat) (m : Machine) : Machine := m.mapTop fun a => { a with pc }

/-! ## Operands -/

def register (m : Machine) : Register → Int64
  | .tokenKind => Int64.ofNat m.current.kind.code
  | .tokenNumber => m.current.numeric.toInt64
  | .tokenLength => Int64.ofNat (min m.current.length (Nat.pow 2 63 - 1))
  | .tokenComplete => 1
  | .matchCase => m.lastCase

def slot (m : Machine) (i : UInt32) : Except Defect Int64 :=
  match m.frames with
  | [] => .error .noActivation
  | top :: _ =>
    match top.slots[i.toNat]? with
    | some word => .ok word
    | none => .error (.slotRange i top.proc)

def slotIndex (m : Machine) : Operand → Except Defect UInt32
  | .slot i => do
    let _ ← m.slot i
    pure i
  | o => .error (.notSlot o)

def setSlot (i : UInt32) (word : Int64) (m : Machine) : Machine :=
  m.mapTop fun a => { a with slots := a.slots.setIfInBounds i.toNat word }

def word (m : Machine) : Operand → Except Defect Int64
  | .int i => .ok i
  | .slot i => m.slot i
  | .register r => .ok (m.register r)
  | o => .error (.notInteger o)

def real (m : Machine) (exe : Executable) : Operand → Except Defect Binary64
  | .float i =>
    match exe.floats[i.toNat]? with
    | some x => .ok x
    | none => .error (.missingNumber i)
  | .register .tokenNumber => .ok m.current.numeric
  | o => Binary64.ofInt64 <$> m.word o

def bitIndex (bit : Int64) : Except Defect Nat :=
  if 0 ≤ bit ∧ bit < 64 then .ok bit.toNatClampNeg else .error (.bitRange bit)

end Machine

end JsonSieve
