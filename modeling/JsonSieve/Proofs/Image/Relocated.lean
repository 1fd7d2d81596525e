import JsonSieve.Proofs.Image.Resolved

/-!
# Decoding undoes encoding

An assembly of fewer than 2 ^ 32 instructions has an image exactly if all that its operands name exists.
Reading the code of the image gives the instructions of the procedures one after another, with addresses
in place of blocks, and every address lies within its own procedure (`decode_ofAssembly`).
-/

namespace JsonSieve.Image

def Names (a : Assembly) (p : Procedure) : Operand → Prop
  | .label b => ∃ place, p.labels[b.toNat]? = some place ∧ place < p.ops.length
  | .address _ => False
  | .proc k => k.toNat < a.procs.length
  | .split k => k.toNat < a.splits.length
  | .matcher k => k.toNat < a.matchers.length
  | .float k => k.toNat < a.floats.length
  | .none | .slot _ | .int _ | .register _ => True

/-- How many instructions stand before a procedure. -/
def startOf (a : Assembly) (i : Nat) : Nat := sizeOf (a.procs.take i)

variable {a : Assembly}

theorem resolves_iff_names {start : Nat} {p : Procedure}
    (hsize : start + p.ops.length ≤ Nat.pow 2 32) (o : Operand) : Resolves a start p o ↔ Names a p o := by
  cases o with
  | label b =>
    constructor
    · rintro ⟨place, hplace, hlt, -⟩
      exact ⟨place, hplace, hlt⟩
    · rintro ⟨place, hplace, hlt⟩
      exact ⟨place, hplace, hlt, by omega⟩
  | _ => exact Iff.rfl

theorem resolvesAll_iff_names {procs : List Procedure} (start : Nat) (hsize : start + sizeOf procs ≤ Nat.pow 2 32) :
    ResolvesAll a start procs ↔ ∀ p ∈ procs, ∀ op ∈ p.ops, ∀ o ∈ [op.a, op.b], Names a p o := by
  induction procs generalizing start with
  | nil => exact iff_of_true trivial fun _ h => absurd h List.not_mem_nil
  | cons p procs ih =>
    rw [sizeOf_cons] at hsize
    have hnames := fun o => @resolves_iff_names a start p (by omega) o
    rw [ResolvesAll, ih _ (by omega), List.forall_mem_cons]
    simp [hnames]

theorem placedOps_eq (start : Nat) (procs : List Procedure) : placedOps start procs =
    (procs.mapIdx fun i p => p.ops.map (Op.placed (start + sizeOf (procs.take i)) p)).flatten := by
  induction procs generalizing start with
  | nil => rfl
  | cons p procs ih =>
    rw [placedOps, ih, List.mapIdx_cons, List.flatten_cons]
    simp only [List.take_succ_cons, sizeOf_cons, Nat.add_assoc]
    rfl

theorem startOf_add_le {i : Nat} {p : Procedure} (h : a.procs[i]? = some p) :
    startOf a i + p.ops.length ≤ sizeOf a.procs := by
  obtain ⟨hi, rfl⟩ := List.getElem?_eq_some_iff.1 h
  have hsplit := congrArg sizeOf (List.take_append_drop i a.procs)
  rw [List.drop_eq_getElem_cons hi] at hsplit
  simp only [sizeOf, List.map_append, List.sum_append, List.map_cons, List.sum_cons, startOf] at hsplit ⊢
  omega

/-- An assembly has an image exactly if its operands name what is there, and decoding the image gives its
instructions back, with the labels of each procedure as addresses inside it. -/
theorem decode_ofAssembly (a : Assembly) (hsize : sizeOf a.procs < Nat.pow 2 32) :
    ((∃ image, ofAssembly a = .ok image) ↔ ∀ p ∈ a.procs, ∀ op ∈ p.ops, ∀ o ∈ [op.a, op.b], Names a p o) ∧
    ∀ image, ofAssembly a = .ok image → Executable.decode image = .ok ((a.procs.mapIdx fun i p =>
        p.ops.map (Op.placed (startOf a i) p)).flatten ++ [{ code := .finish }]) ∧
      ∀ (i : Nat) (p : Procedure), a.procs[i]? = some p →
        (∃ entry : UInt32, image.procs[i]? = some ⟨p.slots, entry⟩ ∧ entry.toNat = startOf a i) ∧
        ∀ op ∈ p.ops, ∀ o ∈ [op.a, op.b], ∀ b, o = .label b → ∃ place address,
          p.labels[b.toNat]? = some place ∧ place < p.ops.length ∧
          o.placed (startOf a i) p = .address address ∧ address.toNat = startOf a i + place := by
  have hnames := @resolvesAll_iff_names a a.procs 0 (by omega)
  have haddressed : Addressed 0 a.procs := addressed_of 0 (by omega)
  constructor
  · simp only [ofAssembly_eq_ok, hnames, exists_and_left, exists_eq, and_true]
    exact and_iff_right haddressed
  · intro image himage
    obtain ⟨⟨-, hresolves⟩, rfl⟩ := ofAssembly_eq_ok.1 himage
    refine ⟨?_, fun i p hp => ?_⟩
    · rw [Executable.decode_encode (show (placedImage a).code = _ from rfl), allOps, placedOps_eq]
      simp only [Nat.zero_add, startOf]
    · have hle := startOf_add_le hp
      have hstart : startOf a i < Nat.pow 2 32 := by omega
      refine ⟨⟨UInt32.ofNat (startOf a i), ?_, UInt32.toNat_ofNat_of_lt' hstart⟩, ?_⟩
      · rw [placedImage, getElem?_placedEntries 0 hp, Nat.zero_add]
        rfl
      · rintro op hop o ho b rfl
        obtain ⟨place, hplace, hlt⟩ := hnames.1 hresolves p (List.mem_of_getElem? hp) op hop _ ho
        have hword : startOf a i + place < Nat.pow 2 32 := by omega
        refine ⟨place, UInt32.ofNat (startOf a i + place), hplace, hlt, ?_, UInt32.toNat_ofNat_of_lt' hword⟩
        rw [Operand.placed, hplace, Option.getD_some]

def branching : Assembly := {
  procs := [
    ⟨0, [⟨.call, .proc 1, .none⟩, ⟨.ret, .int 0, .none⟩], [0]⟩,
    ⟨1, [⟨.compareWords .eq, .slot 0, .int (-7)⟩, ⟨.branchIfSet, .label 1, .none⟩, ⟨.ret, .int 1, .none⟩,
      ⟨.ret, .int 0, .none⟩], [0, 3]⟩] }

/-- The second block of the second procedure is the sixth instruction. -/
theorem decode_ofAssembly_branching : sizeOf branching.procs < Nat.pow 2 32 ∧
    ∃ image, ofAssembly branching = .ok image ∧ Executable.decode image = .ok [
      ⟨.call, .proc 1, .none⟩, ⟨.ret, .int 0, .none⟩, ⟨.compareWords .eq, .slot 0, .int (-7)⟩,
      ⟨.branchIfSet, .address 5, .none⟩, ⟨.ret, .int 1, .none⟩, ⟨.ret, .int 0, .none⟩, { code := .finish }] := by
  have hsize : sizeOf branching.procs < Nat.pow 2 32 := by decide
  obtain ⟨image, himage⟩ : ∃ image, ofAssembly branching = .ok image := ⟨_, rfl⟩
  exact ⟨hsize, image, himage, ((decode_ofAssembly branching hsize).2 image himage).1⟩

end JsonSieve.Image
