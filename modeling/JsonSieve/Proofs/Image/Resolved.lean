import Mathlib.Algebra.GroupWithZero.Nat
import Mathlib.Data.List.Forall2
import JsonSieve.Image.OfAssembly
import JsonSieve.Proofs.Image.Encoded

/-!
# Images of assemblies

An assembly has an image exactly if what its operands name exists and its addresses fit a word
(`ofAssembly_eq_ok`), and the executable of that image has the instructions of the assembly with
addresses in place of labels (`ofImage_eq_ok`).
-/

namespace JsonSieve

theorem except_bind_eq_ok {ε α β : Type} {x : Except ε α} {f : α → Except ε β} {b : β} :
    (x >>= f) = .ok b ↔ ∃ a, x = .ok a ∧ f a = .ok b := by
  cases x with
  | error e => exact ⟨fun h => (by cases h), fun ⟨_, h, _⟩ => by cases h⟩
  | ok a =>
    constructor
    · exact fun h => ⟨a, rfl, h⟩
    · rintro ⟨_, h, hf⟩
      cases h
      exact hf

theorem mapError_eq_ok {ε ε' α : Type} {f : ε → ε'} {x : Except ε α} {a : α} : x.mapError f = .ok a ↔ x = .ok a := by
  cases x with
  | error e => exact ⟨nofun, nofun⟩
  | ok b => exact ⟨fun h => by cases h; rfl, fun h => by cases h; rfl⟩

/-- An operand with the address of its block, in a procedure that begins at `start`. -/
def Operand.placed (start : Nat) (p : Procedure) : Operand → Operand
  | .label b => .address (UInt32.ofNat (start + (p.labels[b.toNat]?).getD 0))
  | o => o

def Op.placed (start : Nat) (p : Procedure) (op : Op) : Op :=
  ⟨op.code, op.a.placed start p, op.b.placed start p⟩

namespace Image

/-! ## Operands -/

/-- What an operand of a procedure names exists and has an address. -/
def Resolves (a : Assembly) (start : Nat) (p : Procedure) : Operand → Prop
  | .label b => ∃ place, p.labels[b.toNat]? = some place ∧ place < p.ops.length ∧ start + place < Nat.pow 2 32
  | .address _ => False
  | .proc k => k.toNat < a.procs.length
  | .split k => k.toNat < a.splits.length
  | .matcher k => k.toNat < a.matchers.length
  | .float k => k.toNat < a.floats.length
  | .none | .slot _ | .int _ | .register _ => True

variable {i start : Nat} {a : Assembly} {o : Operand} {p : Procedure} {ops : List Op}
  {procs : List Procedure}

theorem address_eq_ok {w : UInt32} : address i = .ok w ↔ i < Nat.pow 2 32 ∧ w = UInt32.ofNat i := by
  rw [address, Word.ofNat?]
  by_cases h : i < Nat.pow 2 32
  · rw [if_pos h]
    exact ⟨fun hok => ⟨h, by cases hok; rfl⟩, fun hw => by rw [hw.2]⟩
  · rw [if_neg h]
    exact ⟨fun hok => (by cases hok), fun hok => absurd hok.1 h⟩

theorem ite_eq_ok {ε α : Type} {p : Prop} [Decidable p] {a b : α} {e : ε} :
    (if p then Except.ok a else .error e) = .ok b ↔ p ∧ b = a := by
  by_cases h : p
  · rw [if_pos h]
    exact ⟨fun hok => ⟨h, by cases hok; rfl⟩, fun ⟨_, hb⟩ => by rw [hb]⟩
  · rw [if_neg h]
    exact ⟨fun hok => (by cases hok), fun hok => absurd hok.1 h⟩

theorem resolve_eq_ok {o' : Operand} :
    resolve a i start p o = .ok o' ↔ Resolves a start p o ∧ o' = o.placed start p := by
  cases o with
  | label b =>
    rw [resolve, Resolves, Operand.placed]
    cases hplace : p.labels[b.toNat]? with
    | none => exact ⟨fun h => (by cases h), fun ⟨⟨_, h, _⟩, _⟩ => by cases h⟩
    | some place =>
      by_cases hlt : place < p.ops.length
      · simp only [if_pos hlt, map_eq_pure_bind, except_bind_eq_ok, address_eq_ok]
        constructor
        · rintro ⟨w, ⟨hw, rfl⟩, ho⟩
          cases ho
          exact ⟨⟨place, rfl, hlt, hw⟩, rfl⟩
        · rintro ⟨⟨_, h, _, hw⟩, rfl⟩
          cases h
          exact ⟨_, ⟨hw, rfl⟩, rfl⟩
      · simp only [if_neg hlt]
        exact ⟨fun h => (by cases h), fun ⟨⟨_, h, hlt', _⟩, _⟩ => by
          cases h
          exact absurd hlt' hlt⟩
  | address => exact ⟨fun h => (by cases h), fun h => absurd h.1 id⟩
  | proc k | split k | matcher k | float k => exact ite_eq_ok
  | none | slot | int | register =>
    exact ⟨fun h => ⟨trivial, by cases h; rfl⟩, fun ⟨_, h⟩ => by rw [h]; rfl⟩

theorem bind_bind_eq_ok {ε α β γ : Type} {x : Except ε α} {y : Except ε β} {f : α → β → γ} {P Q : Prop}
    {a : α} {b : β} {c : γ} (hx : ∀ a', x = .ok a' ↔ P ∧ a' = a) (hy : ∀ b', y = .ok b' ↔ Q ∧ b' = b) :
    (x >>= fun a => y >>= fun b => Except.ok (f a b)) = .ok c ↔ (P ∧ Q) ∧ c = f a b := by
  simp only [except_bind_eq_ok, hx, hy]
  constructor
  · rintro ⟨_, ⟨hP, rfl⟩, _, ⟨hQ, rfl⟩, h⟩
    cases h
    exact ⟨⟨hP, hQ⟩, rfl⟩
  · rintro ⟨⟨hP, hQ⟩, rfl⟩
    exact ⟨_, ⟨hP, rfl⟩, _, ⟨hQ, rfl⟩, rfl⟩

theorem resolveOp_eq_ok {op op' : Op} : resolveOp a i start p op = .ok op' ↔
      (Resolves a start p op.a ∧ Resolves a start p op.b) ∧ op' = op.placed start p :=
  bind_bind_eq_ok (fun _ => resolve_eq_ok) fun _ => resolve_eq_ok

/-! ## Procedures -/

/-- What the operands of procedures name exists, and the addresses from `start` on fit a word. -/
def ResolvesAll (a : Assembly) (start : Nat) : List Procedure → Prop
  | [] => True
  | p :: rest => (∀ op ∈ p.ops, Resolves a start p op.a ∧ Resolves a start p op.b) ∧
      ResolvesAll a (start + p.ops.length) rest

/-- The first addresses of procedures fit a word. -/
def Addressed (start : Nat) : List Procedure → Prop
  | [] => True
  | p :: rest => start < Nat.pow 2 32 ∧ Addressed (start + p.ops.length) rest

def placedOps (start : Nat) : List Procedure → List Op
  | [] => []
  | p :: rest => p.ops.map (Op.placed start p) ++ placedOps (start + p.ops.length) rest

def placedEntries (start : Nat) : List Procedure → List ProcEntry
  | [] => []
  | p :: rest => ⟨p.slots, UInt32.ofNat start⟩ :: placedEntries (start + p.ops.length) rest

theorem mapM_resolveOp {ops' : List Op} : ops.mapM (resolveOp a i start p) = .ok ops' ↔
      (∀ op ∈ ops, Resolves a start p op.a ∧ Resolves a start p op.b) ∧
      ops' = ops.map (Op.placed start p) := by
  induction ops generalizing ops' with
  | nil => exact ⟨fun h => ⟨fun _ h => absurd h List.not_mem_nil, by cases h; rfl⟩, fun h => by rw [h.2]; rfl⟩
  | cons op ops ih =>
    rw [List.mapM_cons, List.forall_mem_cons]
    exact bind_bind_eq_ok (fun _ => resolveOp_eq_ok) fun _ => ih

theorem resolveProcs_eq_ok (i start : Nat) : resolveProcs a i start procs = .ok ops ↔
      ResolvesAll a start procs ∧ ops = placedOps start procs := by
  induction procs generalizing i start ops with
  | nil => exact ⟨fun h => ⟨trivial, by cases h; rfl⟩, fun h => by rw [h.2]; rfl⟩
  | cons p procs ih =>
    exact bind_bind_eq_ok (fun _ => mapM_resolveOp) fun _ => ih _ _

theorem entries_eq_ok (start : Nat) {list : List ProcEntry} :
    entries start procs = .ok list ↔ Addressed start procs ∧ list = placedEntries start procs := by
  induction procs generalizing start list with
  | nil => exact ⟨fun h => ⟨trivial, by cases h; rfl⟩, fun h => by rw [h.2]; rfl⟩
  | cons p procs ih =>
    exact bind_bind_eq_ok (f := fun first rest => ⟨p.slots, first⟩ :: rest) (fun _ => address_eq_ok) fun _ => ih _

def allOps (a : Assembly) : List Op := placedOps 0 a.procs ++ [{ code := .finish }]

def placedImage (a : Assembly) : Image := {
  procs := placedEntries 0 a.procs, floats := a.floats, matchers := a.matchers, splits := a.splits
  code := (allOps a).flatMap Op.encode }

theorem ofAssembly_eq_ok {image : Image} : ofAssembly a = .ok image ↔
    (Addressed 0 a.procs ∧ ResolvesAll a 0 a.procs) ∧ image = placedImage a := by
  simp only [ofAssembly, except_bind_eq_ok, resolveProcs_eq_ok, entries_eq_ok]
  constructor
  · rintro ⟨_, ⟨hentries, rfl⟩, _, ⟨hops, rfl⟩, h⟩
    cases h
    exact ⟨⟨hentries, hops⟩, rfl⟩
  · rintro ⟨⟨hentries, hops⟩, rfl⟩
    exact ⟨_, ⟨hentries, rfl⟩, _, ⟨hops, rfl⟩, rfl⟩

/-! ## Executables -/

theorem prepare_eq_ok [Regex.Engine] {matchers : List Matcher} (index : Nat) {list : List Recognizer} :
    Executable.prepare index matchers = .ok list ↔ List.Forall₂ (fun m r => m.recognizer = .ok r) matchers list := by
  induction matchers generalizing index list with
  | nil => exact ⟨fun h => by cases h; exact .nil, fun h => by cases h; rfl⟩
  | cons m matchers ih =>
    rw [Executable.prepare]
    cases hm : m.recognizer with
    | error fault =>
      refine ⟨fun h => (by cases h), fun h => ?_⟩
      cases h with
      | cons hr _ =>
        rw [hm] at hr
        cases hr
    | ok r =>
      cases hrest : Executable.prepare (index + 1) matchers with
      | error e =>
        refine ⟨fun h => (by cases h), fun h => ?_⟩
        cases h with
        | cons _ hrs =>
          rw [(ih (index + 1)).2 hrs] at hrest
          cases hrest
      | ok rs =>
        constructor
        · intro h
          cases h
          exact .cons hm ((ih (index + 1)).1 hrest)
        · intro h
          cases h with
          | cons hr hrs =>
            rw [hm] at hr
            cases hr
            rw [(ih (index + 1)).2 hrs] at hrest
            cases hrest
            rfl

def executableOf (image : Image) (ops : List Op) (recognizers : List Recognizer) : Executable := {
  image, ops := ops.toArray, procs := image.procs.toArray, floats := image.floats.toArray
  splits := (image.splits.map List.toArray).toArray, recognizers := recognizers.toArray }

theorem ofImage_eq_ok [Regex.Engine] {image : Image} (h : image.code = ops.flatMap Op.encode)
    {exe : Executable} : Executable.ofImage image = .ok exe ↔ Executable.defect? image ops = none ∧ ∃ recognizers,
        List.Forall₂ (fun m r => m.recognizer = .ok r) image.matchers recognizers ∧
        exe = executableOf image ops recognizers := by
  have hdecode := Executable.decode_encode h
  rw [Executable.ofImage, hdecode]
  dsimp only [bind, Except.bind]
  cases hdefect : Executable.defect? image ops with
  | some e => exact ⟨fun h => (by cases h), fun h => by cases h.1⟩
  | none =>
    show (Executable.prepare 0 image.matchers >>= _) = _ ↔ _
    rw [except_bind_eq_ok]
    simp only [prepare_eq_ok]
    constructor
    · rintro ⟨rs, hrs, hexe⟩
      cases hexe
      exact ⟨trivial, rs, hrs, rfl⟩
    · rintro ⟨_, rs, hrs, rfl⟩
      exact ⟨rs, hrs, rfl⟩

/-! ## Whole assemblies -/

def sizeOf (procs : List Procedure) : Nat := (procs.map (·.ops.length)).sum

theorem sizeOf_cons (p : Procedure) (procs : List Procedure) : sizeOf (p :: procs) = p.ops.length + sizeOf procs := rfl

theorem sizeOf_take_succ (p : Procedure) (procs : List Procedure) (i : Nat) :
    sizeOf ((p :: procs).take (i + 1)) = p.ops.length + sizeOf (procs.take i) := sizeOf_cons _ _

theorem getElem?_placedEntries (start : Nat) (hp : procs[i]? = some p) :
    (placedEntries start procs)[i]? = some ⟨p.slots, UInt32.ofNat (start + sizeOf (procs.take i))⟩ := by
  induction procs generalizing start i with
  | nil => cases hp
  | cons q procs ih =>
    cases i with
    | zero =>
      cases hp
      rfl
    | succ i =>
      rw [sizeOf_take_succ, placedEntries, List.getElem?_cons_succ, ih _ hp, Nat.add_assoc]

theorem Resolves.of_zero
    (h : Resolves a 0 p o) (hsize : start + p.ops.length ≤ Nat.pow 2 32) : Resolves a start p o := by
  cases o with
  | label b =>
    obtain ⟨place, hplace, hlt, -⟩ := h
    exact ⟨place, hplace, hlt, Nat.lt_of_lt_of_le (Nat.add_lt_add_left hlt start) hsize⟩
  | _ => exact h

theorem addressed_of (start : Nat) (hsize : start + sizeOf procs < Nat.pow 2 32) : Addressed start procs := by
  induction procs generalizing start with
  | nil => trivial
  | cons p procs ih =>
    rw [sizeOf_cons] at hsize
    exact ⟨by omega, ih _ (by omega)⟩

theorem resolvesAll_of (h : ∀ p ∈ procs, ∀ op ∈ p.ops, ∀ o ∈ [op.a, op.b], Resolves a 0 p o) (start : Nat)
    (hsize : start + sizeOf procs ≤ Nat.pow 2 32) : ResolvesAll a start procs := by
  induction procs generalizing start with
  | nil => trivial
  | cons p procs ih =>
    rw [sizeOf_cons] at hsize
    refine ⟨fun op hop => ?_, ih (fun q hq => h q (.tail _ hq)) _ (by omega)⟩
    have hop := h p (.head _) op hop
    exact ⟨(hop op.a (by simp)).of_zero (by omega), (hop op.b (by simp)).of_zero (by omega)⟩

theorem mem_placedEntries {e : ProcEntry} (haddressed : Addressed start procs)
    (h : e ∈ placedEntries start procs) : ∃ p ∈ procs, ∃ s, e = ⟨p.slots, UInt32.ofNat s⟩ ∧
      s < Nat.pow 2 32 ∧ s + p.ops.length ≤ start + sizeOf procs := by
  induction procs generalizing start with
  | nil => exact absurd h List.not_mem_nil
  | cons p procs ih =>
    rw [sizeOf_cons]
    rcases List.mem_cons.1 h with rfl | h
    · exact ⟨p, List.mem_cons_self .., start, rfl, haddressed.1, by omega⟩
    · obtain ⟨q, hq, s, he, hword, hs⟩ := ih haddressed.2 h
      exact ⟨q, List.mem_cons_of_mem _ hq, s, he, hword, by omega⟩

theorem mem_placedOps {op : Op}
    (hresolves : ResolvesAll a start procs) (h : op ∈ placedOps start procs) : ∃ p op' s, op = Op.placed s p op' ∧
      Resolves a s p op'.a ∧ Resolves a s p op'.b ∧ s + p.ops.length ≤ start + sizeOf procs := by
  induction procs generalizing start with
  | nil => exact absurd h List.not_mem_nil
  | cons p procs ih =>
    rw [sizeOf_cons]
    rcases List.mem_append.1 h with h | h
    · obtain ⟨op', hop', rfl⟩ := List.mem_map.1 h
      exact ⟨p, op', start, rfl, (hresolves.1 op' hop').1, (hresolves.1 op' hop').2, by omega⟩
    · obtain ⟨q, op', s, hop, ha, hb, hs⟩ := ih hresolves.2 h
      exact ⟨q, op', s, hop, ha, hb, by omega⟩

theorem length_placedOps (start : Nat) (procs : List Procedure) : (placedOps start procs).length = sizeOf procs := by
  induction procs generalizing start with
  | nil => rfl
  | cons p procs ih => rw [placedOps, List.length_append, List.length_map, ih, sizeOf_cons]

theorem length_placedEntries (start : Nat) (procs : List Procedure) :
    (placedEntries start procs).length = procs.length := by
  induction procs generalizing start with
  | nil => rfl
  | cons p procs ih => rw [placedEntries, List.length_cons, ih, List.length_cons]

theorem operandOk_placed {size : Nat} (h : Resolves a start p o) (hsize : start + p.ops.length ≤ size) :
    Executable.operandOk (placedImage a) size (o.placed start p) = true := by
  cases o with
  | label b =>
    obtain ⟨place, hplace, hlt, hword⟩ := h
    simp only [Operand.placed, hplace, Option.getD_some, Executable.operandOk, decide_eq_true_eq]
    rw [UInt32.toNat_ofNat_of_lt' hword]
    omega
  | address => exact absurd h id
  | proc k =>
    simp only [Operand.placed, Executable.operandOk, decide_eq_true_eq, placedImage, length_placedEntries]
    exact h
  | split k | matcher k | float k => exact decide_eq_true h
  | none | slot | int | register => rfl

theorem length_allOps (a : Assembly) : (allOps a).length = sizeOf a.procs + 1 := by
  rw [allOps, List.length_append, length_placedOps]
  rfl

/-- Everything that the image of an assembly names exists in it. -/
structure Complete (a : Assembly) : Prop where
  addressed : Addressed 0 a.procs
  resolves : ResolvesAll a 0 a.procs
  nonempty : a.procs ≠ []
  code : ∀ p ∈ a.procs, p.ops ≠ []
  splits : ∀ list ∈ a.splits, ∀ k ∈ list, k.toNat < a.procs.length

theorem Complete.entries_eq (h : Complete a) : ((placedImage a).procs.zipIdx.findSome? fun (p, i) =>
      if p.entry.toNat < (allOps a).length - 1 then none
      else some (RunError.malformed 0 (.entryRange i p.entry))) = none := by
  rw [List.findSome?_eq_none_iff]
  rintro ⟨e, i⟩ he
  obtain ⟨p, hp, s, rfl, hword, hs⟩ :=
    mem_placedEntries h.addressed (List.mem_of_getElem? (List.mem_zipIdx_iff_getElem?.1 he))
  have hpos := List.length_pos_of_ne_nil (h.code p hp)
  refine if_pos ?_
  rw [UInt32.toNat_ofNat_of_lt' hword, length_allOps]
  omega

theorem Complete.splits_eq (h : Complete a) : ((placedImage a).splits.zipIdx.findSome? fun (list, i) =>
      if list.all fun p => decide (p.toNat < (placedImage a).procs.length) then none
      else some (RunError.malformed 0 (.splitNames i))) = none := by
  rw [List.findSome?_eq_none_iff]
  rintro ⟨list, i⟩ hlist
  have hmem := List.mem_of_getElem? (List.mem_zipIdx_iff_getElem?.1 hlist)
  refine if_pos ?_
  rw [List.all_eq_true]
  intro k hk
  simp only [placedImage, length_placedEntries, decide_eq_true_eq]
  exact h.splits list hmem k hk

theorem Complete.operands_eq (h : Complete a) : ((allOps a).zipIdx.findSome? fun (op, pc) =>
      (Executable.badOperand? (placedImage a) (allOps a).length op).map (RunError.malformed pc)) =
      none := by
  have hlength := length_allOps a
  rw [List.findSome?_eq_none_iff]
  rintro ⟨op, pc⟩ hop
  have hmem := List.mem_of_getElem? (List.mem_zipIdx_iff_getElem?.1 hop)
  rw [Option.map_eq_none_iff, Executable.badOperand?, Option.map_eq_none_iff, List.find?_eq_none]
  intro o ho
  rcases List.mem_append.1 hmem with hmem | hmem
  · obtain ⟨p, op', s, rfl, hopA, hopB, hs⟩ := mem_placedOps h.resolves hmem
    have hle : s + p.ops.length ≤ (allOps a).length := by omega
    obtain ⟨o', hok, rfl⟩ : ∃ o', Resolves a s p o' ∧ o = o'.placed s p := by
      rcases List.mem_cons.1 ho with rfl | ho
      · exact ⟨op'.a, hopA, rfl⟩
      · rw [List.mem_singleton.1 ho]
        exact ⟨op'.b, hopB, rfl⟩
    simp [operandOk_placed hok hle]
  · obtain rfl : op = { code := .finish } := List.mem_singleton.1 hmem
    obtain rfl : o = .none := by simpa using ho
    simp [Executable.operandOk]

theorem Complete.defect?_eq (h : Complete a) : Executable.defect? (placedImage a) (allOps a) = none := by
  have hlast : (allOps a).getLast?.map (·.code) = some .finish := by
    rw [allOps, List.getLast?_concat]
    rfl
  have hprocs : (placedImage a).procs.isEmpty = false := by
    rw [List.isEmpty_eq_false_iff, ← List.length_pos_iff, placedImage, length_placedEntries]
    exact List.length_pos_of_ne_nil h.nonempty
  rw [Executable.defect?]
  simp only [hlast, hprocs, h.entries_eq, h.splits_eq, h.operands_eq]
  rfl

/-- A complete assembly has an image, and its executable lacks nothing but recognizers. -/
theorem Complete.compiles [Regex.Engine] (h : Complete a) :
    ofAssembly a = .ok (placedImage a) ∧ ∀ exe, Executable.ofImage (placedImage a) = .ok exe ↔
      ∃ recognizers, List.Forall₂ (fun m r => m.recognizer = .ok r) a.matchers recognizers ∧
        exe = executableOf (placedImage a) (allOps a) recognizers := by
  refine ⟨ofAssembly_eq_ok.2 ⟨⟨h.addressed, h.resolves⟩, rfl⟩, fun exe => ?_⟩
  rw [ofImage_eq_ok rfl, h.defect?_eq]
  exact ⟨fun h => h.2, fun h => ⟨rfl, h⟩⟩

end Image

end JsonSieve
