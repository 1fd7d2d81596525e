import JsonSieve.Number.Word
import JsonSieve.Stmt.Basic

/-!
# Instructions

An instruction is an opcode with up to two operands. Comparisons set the condition flag, and
conditional branches read it. The numbers of opcodes, registers and kinds of operands are those of
encoded images.
-/

namespace JsonSieve

/-- What an instruction does. `a` and `b` are its operands. -/
inductive Opcode where
  | nop
  | compareWords (c : Comparison)
  | compareReals (c : Comparison)
  /-- Is `a` divided by `b` integral? -/
  | divides
  | branch
  | branchIfSet
  | branchIfClear
  | call
  | ret
  /-- `b` becomes how many procedures of split list `a` accept the coming value. -/
  | split
  /-- `b` becomes the bits of the procedures of split list `a` that accept the coming value. -/
  | splitBits
  | token
  | consume
  | untoken
  /-- The match register becomes the case of the current string token in matcher `a`. -/
  | matchCase
  | move
  | incr
  | decr
  | bitSet
  | bitClear
  /-- Is bit `b` of slot `a` set? -/
  | bitTest
  /-- `a` becomes how many bits of `b` are set. -/
  | bitCount
  /-- Has the coming value not been seen in unique set `a`? -/
  | unique
  /-- The end of the code; running it is an error. -/
  | finish
  deriving DecidableEq, Repr, Inhabited

namespace Opcode

def all : List Opcode := [
  .nop,
  .compareWords .lt, .compareWords .le, .compareWords .eq,
  .compareWords .ge, .compareWords .gt, .compareWords .ne,
  .compareReals .lt, .compareReals .le, .compareReals .eq,
  .compareReals .ge, .compareReals .gt, .compareReals .ne,
  .divides, .branch, .branchIfSet, .branchIfClear, .call, .ret, .split, .splitBits,
  .token, .consume, .untoken, .matchCase, .move, .incr, .decr,
  .bitSet, .bitClear, .bitTest, .bitCount, .unique, .finish]

def comparisonCode : Comparison → Nat
  | .lt => 0
  | .le => 1
  | .eq => 2
  | .ge => 3
  | .gt => 4
  | .ne => 5

def code : Opcode → Nat
  | .nop => 0
  | .compareWords c => 1 + comparisonCode c
  | .compareReals c => 7 + comparisonCode c
  | .divides => 13
  | .branch => 14
  | .branchIfSet => 15
  | .branchIfClear => 16
  | .call => 17
  | .ret => 18
  | .split => 19
  | .splitBits => 20
  | .token => 21
  | .consume => 22
  | .untoken => 23
  | .matchCase => 24
  | .move => 25
  | .incr => 26
  | .decr => 27
  | .bitSet => 28
  | .bitClear => 29
  | .bitTest => 30
  | .bitCount => 31
  | .unique => 32
  | .finish => 33

def ofCode? (code : Nat) : Option Opcode := all[code]?

def comparisonName : Comparison → String
  | .ne => "NEQ"
  | c => c.name

def name : Opcode → String
  | .nop => "NOP"
  | .compareWords c => "I" ++ comparisonName c
  | .compareReals c => "F" ++ comparisonName c
  | .divides => "FINT"
  | .branch => "BR"
  | .branchIfSet => "CBT"
  | .branchIfClear => "CBF"
  | .call => "CALL"
  | .ret => "RETURN"
  | .split => "SPLIT"
  | .splitBits => "SPLITV"
  | .token => "TOKEN"
  | .consume => "CONSUME"
  | .untoken => "UNTOKEN"
  | .matchCase => "MATCH"
  | .move => "MOVE"
  | .incr => "INCR"
  | .decr => "DECR"
  | .bitSet => "BSET"
  | .bitClear => "BCLEAR"
  | .bitTest => "BTEST"
  | .bitCount => "BCNT"
  | .unique => "UNIQUE"
  | .finish => "END"

def ofName? (name : String) : Option Opcode := all.find? (·.name = name)

end Opcode

/-- What an operand can read besides slots: the current token and the last case. -/
inductive Register where
  | tokenKind
  | tokenNumber
  | tokenLength
  | tokenComplete
  | matchCase
  deriving DecidableEq, Repr, Inhabited

namespace Register

def all : List Register := [.tokenKind, .tokenNumber, .tokenLength, .tokenComplete, .matchCase]

def code : Register → Nat
  | .tokenKind => 0
  | .tokenNumber => 1
  | .tokenLength => 2
  | .tokenComplete => 3
  | .matchCase => 4

def name : Register → String
  | .tokenKind => "TT"
  | .tokenNumber => "TNUM"
  | .tokenLength => "TLEN"
  | .tokenComplete => "TCOMPL"
  | .matchCase => "M"

def ofCode? (code : Nat) : Option Register := all[code]?

def ofName? (name : String) : Option Register := all.find? (·.name = name)

end Register

inductive Operand where
  | none
  | slot (i : UInt32)
  | int (i : Int64)
  | float (i : UInt32)
  | matcher (i : UInt32)
  | split (i : UInt32)
  | proc (i : UInt32)
  /-- A block of the procedure, before it has an address. -/
  | label (i : UInt32)
  | address (i : UInt32)
  | register (r : Register)
  deriving DecidableEq, Repr, Inhabited

namespace Operand

def kind : Operand → Nat
  | .none => 0
  | .slot _ => 1
  | .int _ => 2
  | .float _ => 3
  | .matcher _ => 4
  | .split _ => 5
  | .proc _ => 6
  | .label _ => 7
  | .address _ => 8
  | .register _ => 9

def payload : Operand → Int64
  | .none => 0
  | .int i => i
  | .slot i | .float i | .matcher i | .split i | .proc i | .label i | .address i =>
    Int64.ofNat i.toNat
  | .register r => Int64.ofNat r.code

def index? (payload : Int64) : Option UInt32 :=
  if payload < 0 then .none else Word.ofNat? payload.toNatClampNeg

/-- The operand of a kind with a payload; a payload that does not fit the kind gives nothing. -/
def ofParts? (kind : Nat) (payload : Int64) : Option Operand :=
  match kind with
  | 0 => some .none
  | 1 => (index? payload).map .slot
  | 2 => some (.int payload)
  | 3 => (index? payload).map .float
  | 4 => (index? payload).map .matcher
  | 5 => (index? payload).map .split
  | 6 => (index? payload).map .proc
  | 7 => (index? payload).map .label
  | 8 => (index? payload).map .address
  | 9 => if payload < 0 then Option.none else (Register.ofCode? payload.toNatClampNeg).map .register
  | _ => Option.none

def text : Operand → String
  | .none => ""
  | .slot i => s!"slot({i})"
  | .int i => s!"${i.toInt}"
  | .float i => s!"float({i})"
  | .matcher i => s!"dfa({i})"
  | .split i => s!"split({i})"
  | .proc i => s!"proc({i})"
  | .label i => s!"b{i}"
  | .address i => s!"@{i}"
  | .register r => s!"%{r.name}"

end Operand

structure Op where
  code : Opcode
  a : Operand := .none
  b : Operand := .none
  deriving DecidableEq, Repr, Inhabited

def Op.text (op : Op) : String :=
  match op.a, op.b with
  | .none, .none => op.code.name
  | a, .none => s!"{op.code.name} {a.text}"
  | a, b => s!"{op.code.name} {a.text}, {b.text}"

end JsonSieve
