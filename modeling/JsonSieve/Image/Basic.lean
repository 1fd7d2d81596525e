import JsonSieve.Assembly.Basic
import JsonSieve.Image.Defect

/-!
# Images

An image is a program ready to be stored: tables and a list of bytes. An instruction takes 19 bytes:
the number of its opcode and two operands, each the number of its kind and a word of eight bytes, the
least significant first. Branches name the index of an instruction, and the last instruction is the
end of the code.
-/

namespace JsonSieve

structure ProcEntry where
  slots : UInt32
  entry : UInt32
  deriving DecidableEq, Repr, Inhabited

structure Image where
  procs : List ProcEntry
  floats : List Binary64 := []
  matchers : List Matcher := []
  splits : List (List UInt32) := []
  code : List UInt8
  deriving DecidableEq, Repr, Inhabited

namespace Operand

def width : Nat := 9

def encode (o : Operand) : List UInt8 :=
  UInt8.ofNat o.kind :: Word.bytes 8 o.payload.toUInt64.toNat

def decode : List UInt8 → Except Defect Operand
  | [] => .error (.badKind 0)
  | kind :: rest =>
    if 9 < kind then .error (.badKind kind)
    else
      let payload := (UInt64.ofNat (Word.ofBytes (rest.take 8))).toInt64
      match ofParts? kind.toNat payload with
      | some o => .ok o
      | .none => .error (.badPayload payload)

end Operand

namespace Op

def width : Nat := 1 + 2 * Operand.width

def encode (op : Op) : List UInt8 :=
  UInt8.ofNat op.code.code :: op.a.encode ++ op.b.encode

def decode : List UInt8 → Except Defect Op
  | [] => .error (.badOpcode 0)
  | byte :: rest =>
    match Opcode.ofCode? byte.toNat with
    | none => .error (.badOpcode byte)
    | some code => do
      let a ← Operand.decode (rest.take Operand.width)
      let b ← Operand.decode (rest.drop Operand.width)
      pure ⟨code, a, b⟩

end Op

namespace Image

def size (image : Image) : Nat := image.code.length / Op.width

def recordsOf : Nat → List UInt8 → List (List UInt8)
  | 0, _ => []
  | n + 1, bytes => bytes.take Op.width :: recordsOf n (bytes.drop Op.width)

def records (image : Image) : List (List UInt8) := recordsOf image.size image.code

def listing (image : Image) : String :=
  let entry (i : Nat) (p : ProcEntry) : String := s!"  {i}: slots={p.slots} entry=@{p.entry}\n"
  let line (pc : Nat) (record : List UInt8) : String :=
    let mark := match image.procs.findIdx? fun p => p.entry.toNat = pc with
      | some i => s!"proc{i}:\n"
      | none => ""
    let text := match Op.decode record with
      | .ok op => op.text
      | .error d => s!"<{d.messageAt pc}>"
    s!"{mark}  {Text.padLeft 5 (toString pc)}  {text}\n"
  s!".PROCS {image.procs.length}\n"
    ++ String.join (image.procs.zipIdx.map fun (p, i) => entry i p)
    ++ listTable ".FLOATS" Binary64.listing image.floats
    ++ (if image.matchers.isEmpty then "" else s!".DFA {image.matchers.length}\n")
    ++ listTable ".SPLITS" listWords image.splits
    ++ ".CODE\n"
    ++ String.join (image.records.zipIdx.map fun (record, pc) => line pc record)

end Image

end JsonSieve
