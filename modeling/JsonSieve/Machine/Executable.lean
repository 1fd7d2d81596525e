import JsonSieve.Image.Basic
import JsonSieve.Matcher
import JsonSieve.Meter

/-!
# Executables

An image whose instructions have been read and whose operands have been checked: every operand that
names an entry of a table or an instruction names one that exists.
-/

namespace JsonSieve

/-- Why a program does not run. None of these says anything about the document. -/
inductive RunError where
  | malformed (pc : Nat) (defect : Defect)
  | badMatcher (index : Nat) (fault : Regex.Error)
  | limit (error : LimitError)
  /-- More of a text was given after its end. -/
  | closed
  deriving DecidableEq, Repr, Inhabited

/-- The text of an error; of a bad matcher, the part in front of what is wrong with it. -/
def RunError.message : RunError → String
  | .malformed pc defect => defect.messageAt pc
  | .badMatcher index _ => s!"cannot compile dfa {index}: "
  | .limit error => error.message
  | .closed => "input already closed"

def RunError.detail : RunError → String
  | .badMatcher _ fault => fault.detail
  | _ => ""

structure Executable where
  image : Image
  ops : Array Op
  procs : Array ProcEntry
  floats : Array Binary64
  splits : Array (Array UInt32)
  recognizers : Array Recognizer
  deriving Inhabited

namespace Executable

def decodeOps (pc : Nat) : List (List UInt8) → Except RunError (List Op)
  | [] => .ok []
  | record :: rest =>
    match Op.decode record with
    | .error d => .error (.malformed pc d)
    | .ok op =>
      match decodeOps (pc + 1) rest with
      | .ok ops => .ok (op :: ops)
      | .error e => .error e

def decode (image : Image) : Except RunError (List Op) :=
  if image.code.length % Op.width ≠ 0 then .error (.malformed image.size .truncated)
  else decodeOps 0 image.records

/-- Does the operand name something that exists, where there are `size` instructions? -/
def operandOk (image : Image) (size : Nat) : Operand → Bool
  | .address a => decide (a.toNat < size)
  | .proc p => decide (p.toNat < image.procs.length)
  | .split s => decide (s.toNat < image.splits.length)
  | .matcher m => decide (m.toNat < image.matchers.length)
  | .float f => decide (f.toNat < image.floats.length)
  | .label _ => false
  | .none | .slot _ | .int _ | .register _ => true

def badOperand? (image : Image) (size : Nat) (op : Op) : Option Defect :=
  ([op.a, op.b].find? fun o => !operandOk image size o).map .badOperand

def defect? (image : Image) (ops : List Op) : Option RunError :=
  let size := ops.length
  let procs := image.procs.length
  if ops.getLast?.map (·.code) ≠ some .finish then some (.malformed size .noEnd)
  else if image.procs.isEmpty then some (.malformed 0 .noProcedures)
  else
    let entries := image.procs.zipIdx.findSome? fun (p, i) =>
      if p.entry.toNat < size - 1 then none
      else some (RunError.malformed 0 (.entryRange i p.entry))
    let splits := image.splits.zipIdx.findSome? fun (list, i) =>
      if list.all fun p => decide (p.toNat < procs) then none
      else some (RunError.malformed 0 (.splitNames i))
    let operands := ops.zipIdx.findSome? fun (op, pc) =>
      (badOperand? image size op).map (RunError.malformed pc)
    (entries.or splits).or operands

def prepare [Regex.Engine] (index : Nat) : List Matcher → Except RunError (List Recognizer)
  | [] => .ok []
  | m :: rest =>
    match m.recognizer with
    | .error fault => .error (.badMatcher index fault)
    | .ok r =>
      match prepare (index + 1) rest with
      | .ok others => .ok (r :: others)
      | .error e => .error e

def ofImage [Regex.Engine] (image : Image) : Except RunError Executable := do
  let ops ← decode image
  match defect? image ops with
  | some e => throw e
  | none =>
    let recognizers ← prepare 0 image.matchers
    pure {
      image, ops := ops.toArray, procs := image.procs.toArray, floats := image.floats.toArray
      splits := (image.splits.map List.toArray).toArray, recognizers := recognizers.toArray }

end Executable

end JsonSieve
