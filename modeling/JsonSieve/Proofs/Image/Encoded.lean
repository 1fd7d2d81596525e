import Mathlib.Algebra.Group.Nat.Defs
import JsonSieve.Machine.Executable

/-!
# Encoded instructions

Reading the bytes of an operand or an instruction gives it back (`Operand.decode_encode`,
`Op.decode_encode`), and so does reading the code of an image (`Executable.decode_encode`).
-/

namespace JsonSieve

namespace Word

theorem length_bytes (n value : Nat) : (bytes n value).length = n := by
  induction n generalizing value with
  | zero => rfl
  | succ n ih => rw [bytes, List.length_cons, ih]

theorem ofBytes_bytes {n value : Nat} (h : value < 256 ^ n) : ofBytes (bytes n value) = value := by
  induction n generalizing value with
  | zero =>
    rw [Nat.pow_zero] at h
    show 0 = value
    omega
  | succ n ih =>
    have hdiv : value / 256 < 256 ^ n := by
      rw [Nat.pow_succ] at h
      exact Nat.div_lt_of_lt_mul (by rwa [Nat.mul_comm])
    have hbyte : (UInt8.ofNat (value % 256)).toNat = value % 256 :=
      UInt8.toNat_ofNat_of_lt' (Nat.mod_lt _ (by decide))
    rw [bytes, ofBytes, ih hdiv, hbyte]
    omega

theorem ofNat?_toNat (i : UInt32) : ofNat? i.toNat = some i := by
  rw [ofNat?, if_pos i.toNat_lt, UInt32.ofNat_toNat]

end Word

namespace Operand

theorem index?_ofNat (i : UInt32) : index? (Int64.ofNat i.toNat) = some i := by
  have hlt : i.toNat < 2 ^ 63 := Nat.lt_trans i.toNat_lt (by decide)
  have hint : (Int64.ofNat i.toNat).toInt = i.toNat := Int64.toInt_ofNat_of_lt hlt
  have hneg : ¬ Int64.ofNat i.toNat < 0 := by
    rw [Int64.lt_iff_toInt_lt, hint]
    exact Int.not_lt.2 (Int.natCast_nonneg _)
  rw [index?, if_neg hneg, Int64.toNatClampNeg, hint]
  exact Word.ofNat?_toNat i

theorem ofParts?_payload (o : Operand) : ofParts? o.kind o.payload = some o := by
  cases o with
  | none | int => rfl
  | register r => cases r <;> rfl
  | _ => simp only [kind, payload, ofParts?, index?_ofNat, Option.map_some]

theorem kind_lt (o : Operand) : o.kind < 10 := by
  cases o <;> simp [kind]

theorem length_encode (o : Operand) : o.encode.length = width := by
  rw [encode, List.length_cons, Word.length_bytes]
  rfl

theorem decode_encode (o : Operand) : decode o.encode = .ok o := by
  have hlt := o.kind_lt
  have hkind : (UInt8.ofNat o.kind).toNat = o.kind :=
    UInt8.toNat_ofNat_of_lt' (Nat.lt_trans hlt (by decide))
  have hsmall : ¬ 9 < UInt8.ofNat o.kind := by
    rw [UInt8.lt_iff_toNat_lt, hkind]
    exact Nat.not_lt.2 (Nat.le_of_lt_succ hlt)
  have hpayload : (UInt64.ofNat (Word.ofBytes ((Word.bytes 8 o.payload.toUInt64.toNat).take 8))).toInt64 =
      o.payload := by
    rw [List.take_of_length_le (Nat.le_of_eq (Word.length_bytes ..)),
      Word.ofBytes_bytes (Nat.lt_of_lt_of_le o.payload.toUInt64.toNat_lt (by decide)), UInt64.ofNat_toNat]
    simp
  rw [encode, decode, if_neg hsmall]
  simp only [hpayload, hkind, ofParts?_payload]

end Operand

namespace Op

theorem ofCode?_code (c : Opcode) : Opcode.ofCode? c.code = some c := by
  cases c with
  | compareWords c | compareReals c => cases c <;> rfl
  | _ => rfl

theorem code_lt (c : Opcode) : c.code < 34 := by
  cases c with
  | compareWords c | compareReals c => cases c <;> decide
  | _ => decide

theorem length_encode (op : Op) : op.encode.length = width := by
  rw [encode, List.length_append, List.length_cons, Operand.length_encode, Operand.length_encode]
  rfl

theorem decode_encode (op : Op) : decode op.encode = .ok op := by
  have hcode : (UInt8.ofNat op.code.code).toNat = op.code.code :=
    UInt8.toNat_ofNat_of_lt' (Nat.lt_trans (code_lt _) (by decide))
  have htake : (op.a.encode ++ op.b.encode).take Operand.width = op.a.encode :=
    List.take_left' (Operand.length_encode _)
  have hdrop : (op.a.encode ++ op.b.encode).drop Operand.width = op.b.encode :=
    List.drop_left' (Operand.length_encode _)
  rw [encode, List.cons_append, decode, hcode, ofCode?_code]
  simp only [htake, hdrop, Operand.decode_encode]
  rfl

end Op

namespace Executable

theorem length_flatMap_encode (ops : List Op) : (ops.flatMap Op.encode).length = Op.width * ops.length := by
  induction ops with
  | nil => rfl
  | cons op ops ih =>
    rw [List.flatMap_cons, List.length_append, ih, Op.length_encode, List.length_cons, Nat.mul_succ, Nat.add_comm]

theorem recordsOf_flatMap (ops : List Op) : Image.recordsOf ops.length (ops.flatMap Op.encode) = ops.map Op.encode := by
  induction ops with
  | nil => rfl
  | cons op ops ih =>
    rw [List.length_cons, Image.recordsOf, List.flatMap_cons, List.take_left' (Op.length_encode op),
      List.drop_left' (Op.length_encode op), ih, List.map_cons]

theorem decodeOps_map_encode (pc : Nat) (ops : List Op) : decodeOps pc (ops.map Op.encode) = .ok ops := by
  induction ops generalizing pc with
  | nil => rfl
  | cons op ops ih =>
    rw [List.map_cons, decodeOps, Op.decode_encode]
    simp only [ih]

theorem decode_encode {image : Image} {ops : List Op} (h : image.code = ops.flatMap Op.encode) :
    decode image = .ok ops := by
  have hwidth : 0 < Op.width := by decide
  have hmod : image.code.length % Op.width = 0 := by
    rw [h, length_flatMap_encode, Nat.mul_mod_right]
  have hsize : image.size = ops.length := by
    rw [Image.size, h, length_flatMap_encode, Nat.mul_div_cancel_left _ hwidth]
  rw [decode, if_neg (not_not_intro hmod), Image.records, hsize, h, recordsOf_flatMap, decodeOps_map_encode]

end Executable

end JsonSieve
