import JsonSieve.Proofs.Assembly.Procedures
import JsonSieve.Schema

/-!
# Branches on the flag

In assembled code a branch on the flag stands directly behind an instruction that sets the flag, and
neither a block nor a procedure begins with such a branch (`led_of_toImage`). So no activation ever looks
at a flag that another one has left behind.
-/

namespace JsonSieve

def Opcode.asksFlag : Opcode → Bool
  | .branchIfSet | .branchIfClear => true
  | _ => false

def Opcode.setsFlag : Opcode → Bool
  | .compareWords _ | .compareReals _ | .divides | .bitTest | .unique => true
  | _ => false

/-! ## Lists of instructions -/

/-- Every branch on the flag stands directly behind an instruction that sets it. `ready` tells whether the
instruction in front of the list does. -/
def led (ready : Bool) : List Op → Bool
  | [] => true
  | op :: rest => (ready || !op.code.asksFlag) && led op.code.setsFlag rest

section

variable {xs ys : List Op}

theorem led_of_false (h : led false xs = true) (ready : Bool) : led ready xs = true := by
  cases xs with
  | nil => rfl
  | cons op rest =>
    rw [led, Bool.and_eq_true] at h ⊢
    refine ⟨?_, h.2⟩
    rw [show (!op.code.asksFlag) = true from h.1, Bool.or_true]

theorem led_append {ready : Bool} (hxs : led ready xs = true) (hys : led false ys = true) :
    led ready (xs ++ ys) = true := by
  induction xs generalizing ready with
  | nil => exact led_of_false hys ready
  | cons op rest ih =>
    rw [List.cons_append, led, Bool.and_eq_true] at *
    exact ⟨hxs.1, ih hxs.2⟩

theorem led_flatMap {α : Type} {list : List α} {f : α → List Op} (h : ∀ a ∈ list, led false (f a) = true) :
    led false (list.flatMap f) = true := by
  induction list with
  | nil => rfl
  | cons a list ih =>
    rw [List.flatMap_cons]
    exact led_append (h a (.head _)) (ih fun b hb => h b (.tail _ hb))

theorem led_placed (start : Nat) (p : Procedure) (ready : Bool) :
    led ready (xs.map (Op.placed start p)) = led ready xs := by
  induction xs generalizing ready with
  | nil => rfl
  | cons op rest ih =>
    rw [List.map_cons, led, ih]
    rfl

theorem head_of_led (h : led false xs = true) {op : Op} (hop : xs.head? = some op) : op.code.asksFlag = false := by
  cases xs with
  | nil => cases hop
  | cons x rest =>
    cases hop
    rw [led, Bool.and_eq_true] at h
    exact Bool.not_eq_true' _ ▸ h.1

theorem next_of_led {ready : Bool} (h : led ready xs = true) {i : Nat} {op op' : Op} (hop : xs[i]? = some op)
    (hsets : op.code.setsFlag = false) (hop' : xs[i + 1]? = some op') : op'.code.asksFlag = false := by
  induction xs generalizing i ready with
  | nil => cases hop
  | cons x rest ih =>
    rw [led, Bool.and_eq_true] at h
    cases i with
    | zero =>
      cases hop
      rw [hsets] at h
      rw [List.getElem?_cons_succ, ← List.head?_eq_getElem?] at hop'
      exact head_of_led h.2 hop'
    | succ i => exact ih h.2 hop hop'

end

/-! ## Statements -/

namespace Assembly

namespace Scope

variable {s : Scope} {floats floats' : List Binary64}

theorem condition_sets {op : Op} {sense : Bool} : (e : Expr) → {floats floats' : List Binary64} →
    s.condition e floats = .ok ((op, sense), floats') → op.code.setsFlag = true
  | .not e, _, _, h => by
    obtain ⟨⟨op', sense'⟩, _, hop, h⟩ := bind_eq_ok h
    cases h
    exact condition_sets e hop
  | .compare c a b, _, _, h => by
    rw [condition] at h
    split at h
    all_goals
      obtain ⟨_, _, -, h⟩ := bind_eq_ok h
      obtain ⟨_, _, -, h⟩ := bind_eq_ok h
      cases h
      rfl
  | .isInteger _, _, _, h | .isMultiple .., _, _, h => by
    obtain ⟨_, _, -, h⟩ := bind_eq_ok h
    obtain ⟨_, _, -, h⟩ := bind_eq_ok h
    cases h
    rfl
  | .bitTest .., _, _, h | .bitsAll _, _, _, h | .bitsAny _, _, _, h | .unique _, _, _, h
  | .temp _, _, _, h => by
    obtain ⟨_, _, -, h⟩ := bind_eq_ok h
    cases h
    rfl
  | .isToken _, _, _, h | .bool _, _, _, h | .tokenComplete, _, _, h => by
    cases h
    rfl

theorem led_moveInto {slot : Operand} {e : Expr} {ops : List Op}
    (h : s.moveInto slot e floats = .ok (ops, floats')) : led false ops = true := by
  cases e with
  | _ =>
    obtain ⟨_, _, -, h⟩ := bind_eq_ok h
    cases h
    rfl

theorem led_flagBranches (next : Option Nat) (onSet onClear : Nat) :
    led true (flagBranches next onSet onClear) = true := by
  unfold flagBranches
  split
  · rfl
  · split <;> rfl

theorem led_stmt {next : Option Nat} {st : Stmt} {ops : List Op}
    (h : s.stmt next st floats = .ok (ops, floats')) : led false ops = true := by
  cases st with
  | nop | valid | invalid | token | consume | untoken | branch =>
    cases h
    rfl
  | incr | decr | bitSet | bitClear =>
    obtain ⟨_, _, -, h⟩ := bind_eq_ok h
    cases h
    rfl
  | splitBits =>
    obtain ⟨_, _, -, h⟩ := bind_eq_ok h
    obtain ⟨_, _, -, h⟩ := bind_eq_ok h
    cases h
    rfl
  | call frame =>
    rw [stmt] at h
    split at h
    · cases h
      rfl
    · cases h
  | move =>
    obtain ⟨_, _, -, h⟩ := bind_eq_ok h
    exact led_moveInto h
  | branchIf e yes no =>
    obtain ⟨⟨op, sense⟩, _, hop, h⟩ := bind_eq_ok h
    cases h
    have hsets := condition_sets e hop
    have hasks : op.code.asksFlag = false := by
      cases hcode : op.code with
      | branchIfSet | branchIfClear =>
        rw [hcode] at hsets
        cases hsets
      | _ => rfl
    rw [led, hsets, hasks, led_flagBranches]
    rfl
  | branchCase t cases otherwise =>
    obtain ⟨slot, _, -, h⟩ := bind_eq_ok h
    cases h
    refine led_append (led_flatMap fun _ _ => rfl) ?_
    cases otherwise <;> rfl
  | _ => cases h

end Scope

/-! ## Procedures -/

/-- The code is led, and so is the code of every block. -/
def LedFrom (ops : List Op) (labels : List Nat) : Prop :=
  led false ops = true ∧ ∀ place ∈ labels, place ≤ ops.length ∧ led false (ops.drop place) = true

theorem LedFrom.append {ops more : List Op} {labels : List Nat} (h : LedFrom ops labels)
    (hmore : led false more = true) : LedFrom (ops ++ more) labels := by
  refine ⟨led_append h.1 hmore, fun place hplace => ?_⟩
  obtain ⟨hle, hled⟩ := h.2 place hplace
  refine ⟨by rw [List.length_append]; omega, ?_⟩
  rw [List.drop_append_of_le_length hle]
  exact led_append hled hmore

theorem LedFrom.mark {ops : List Op} {labels : List (Option Nat)} (h : LedFrom ops (labels.filterMap id))
    (i : Nat) : LedFrom ops ((labels.set i (some ops.length)).filterMap id) := by
  refine ⟨h.1, fun place hplace => ?_⟩
  obtain ⟨label, hlabel, hid⟩ := List.mem_filterMap.1 hplace
  rcases List.mem_or_eq_of_mem_set hlabel with hold | rfl
  · exact h.2 place (List.mem_filterMap.2 ⟨label, hold, hid⟩)
  · cases hid
    rw [List.drop_length]
    exact ⟨Nat.le_refl _, rfl⟩

variable {floats floats' : List Binary64} {s : Scope} {a : Assembly}

theorem ledFrom_procedure {body : FlatBody} {p : Procedure}
    (hok : procedure s body floats = .ok (p, floats')) : LedFrom p.ops p.labels := by
  obtain ⟨-, labels, hlabels, h⟩ := procedure_induction (fun ops labels => LedFrom ops (labels.filterMap id))
    (by simp [LedFrom, led]) (fun _ _ i h => h.mark i) (fun h hnew => h.append (Scope.led_stmt hnew)) hok
  rw [hlabels]
  exact h

def LedAll (a : Assembly) : Prop := ∀ p ∈ a.procs, LedFrom p.ops p.labels

theorem ledAll_of_ofFlat {flat : Flat} {facts : Option (List Liveness.FrameFacts)}
    (hok : ofFlat flat facts = .ok a) : LedAll a := by
  have hall := forall₂_of_ofFlat (fun _ p => LedFrom p.ops p.labels) (fun _ _ h => ledFrom_procedure h) hok
  intro p hp
  obtain ⟨i, hi, rfl⟩ := List.getElem_of_mem hp
  exact hall.get (hall.length_eq ▸ hi) hi

end Assembly

/-! ## Executables -/

/-- Is there no branch on the flag at an index? -/
def Executable.Quiet (exe : Executable) (pc : Nat) : Prop :=
  ∀ op, exe.ops[pc]? = some op → op.code.asksFlag = false

/-- A branch on the flag is only reached from an instruction of its activation that sets the flag. -/
structure Executable.Led (exe : Executable) : Prop where
  next : ∀ {pc : Nat} {op : Op}, exe.ops[pc]? = some op → op.code.setsFlag = false → exe.Quiet (pc + 1)
  target : ∀ {pc : Nat} {op : Op} {target : UInt32}, exe.ops[pc]? = some op → op.a = .address target →
    exe.Quiet target.toNat
  entry : ∀ {i : Nat} {p : ProcEntry}, exe.procs[i]? = some p → exe.Quiet p.entry.toNat

namespace Image

open Assembly

variable {procs : List Procedure}

theorem led_placedOps (h : ∀ p ∈ procs, LedFrom p.ops p.labels) (start : Nat) :
    led false (placedOps start procs) = true := by
  induction procs generalizing start with
  | nil => rfl
  | cons p procs ih =>
    refine led_append ?_ (ih (fun q hq => h q (.tail _ hq)) _)
    rw [led_placed]
    exact (h p (.head _)).1

theorem drop_placedOps (start place : Nat) (p : Procedure) (procs : List Procedure) :
    (placedOps start (p :: procs)).drop (p.ops.length + place) =
      (placedOps (start + p.ops.length) procs).drop place := by
  have hlength : (p.ops.map (Op.placed start p)).length = p.ops.length := List.length_map _
  rw [placedOps, ← hlength, List.drop_append, List.drop_of_length_le (by omega), hlength,
    Nat.add_sub_cancel_left, List.nil_append]

theorem led_target {a : Assembly} (h : ∀ p ∈ procs, LedFrom p.ops p.labels)
    {start : Nat} (hresolves : ResolvesAll a start procs) {op : Op} (hop : op ∈ placedOps start procs)
    {target : UInt32} (htarget : op.a = .address target) :
    ∃ place, target.toNat = start + place ∧ led false ((placedOps start procs).drop place) = true := by
  induction procs generalizing start with
  | nil => exact absurd hop List.not_mem_nil
  | cons p procs ih =>
    have hothers : ∀ q ∈ procs, LedFrom q.ops q.labels := fun q hq => h q (.tail _ hq)
    have hplaced := led_placedOps hothers (start + p.ops.length)
    obtain ⟨hp, hprocs⟩ := hresolves
    rcases List.mem_append.1 hop with hop | hop
    · obtain ⟨op, hmem, rfl⟩ := List.mem_map.1 hop
      have hres := (hp op hmem).1
      cases ha : op.a with
      | label b =>
        rw [ha] at hres
        obtain ⟨place, hplace, hlt, hword⟩ := hres
        rw [Op.placed, ha] at htarget
        simp only [Operand.placed, hplace, Option.getD_some, Operand.address.injEq] at htarget
        refine ⟨place, ?_, ?_⟩
        · rw [← htarget, UInt32.toNat_ofNat_of_lt' hword]
        · have hled := (h p (.head _)).2 place (List.mem_of_getElem? hplace)
          rw [placedOps, List.drop_append_of_le_length (by rw [List.length_map]; exact hled.1), ← List.map_drop]
          refine led_append ?_ hplaced
          rw [led_placed]
          exact hled.2
      | address w =>
        rw [ha] at hres
        cases hres
      | _ =>
        rw [Op.placed, ha] at htarget
        cases htarget
    · obtain ⟨place, htarget, hled⟩ := ih hothers hprocs hop
      refine ⟨p.ops.length + place, by omega, ?_⟩
      rwa [drop_placedOps]

theorem led_entry (h : ∀ p ∈ procs, LedFrom p.ops p.labels)
    {start : Nat} (haddressed : Addressed start procs) {e : ProcEntry} (he : e ∈ placedEntries start procs) :
    ∃ place, e.entry.toNat = start + place ∧ led false ((placedOps start procs).drop place) = true := by
  induction procs generalizing start with
  | nil => exact absurd he List.not_mem_nil
  | cons p procs ih =>
    have hothers : ∀ q ∈ procs, LedFrom q.ops q.labels := fun q hq => h q (.tail _ hq)
    rcases List.mem_cons.1 he with rfl | he
    · exact ⟨0, UInt32.toNat_ofNat_of_lt' haddressed.1, led_placedOps h start⟩
    · obtain ⟨place, htarget, hled⟩ := ih hothers haddressed.2 he
      refine ⟨p.ops.length + place, by omega, ?_⟩
      rwa [drop_placedOps]

end Image

theorem led_of_assembly [Regex.Engine] {a : Assembly} (h : a.LedAll) {image : Image}
    (himage : Image.ofAssembly a = .ok image) {exe : Executable} (hexe : Executable.ofImage image = .ok exe) : exe.Led := by
  obtain ⟨⟨haddressed, hresolves⟩, rfl⟩ := Image.ofAssembly_eq_ok.1 himage
  obtain ⟨-, recognizers, -, rfl⟩ := (Image.ofImage_eq_ok rfl).1 hexe
  have hfinish : led false [({ code := .finish } : Op)] = true := rfl
  have hquiet : ∀ {word : UInt32}, (∃ place, word.toNat = 0 + place ∧
      led false ((Image.placedOps 0 a.procs).drop place) = true) →
      ∀ op, (Image.allOps a)[word.toNat]? = some op → op.code.asksFlag = false := by
    rintro word ⟨place, hplace, hled⟩ op hop
    rw [hplace, Nat.zero_add, ← List.head?_drop, Image.allOps, List.drop_append] at hop
    refine head_of_led (led_append hled ?_) hop
    cases place - (Image.placedOps 0 a.procs).length with
    | zero => exact hfinish
    | succ n => rw [List.drop_succ_cons, List.drop_nil]; rfl
  have hops : ∀ {pc : Nat} {op : Op}, (Image.allOps a).toArray[pc]? = some op →
      (Image.allOps a)[pc]? = some op := fun hop => (List.getElem?_toArray ..).symm.trans hop
  refine ⟨fun {pc op} hop hsets op' hop' => ?_, fun {pc op target} hop htarget op' hop' => ?_,
    fun {i p} hp op hop => ?_⟩
  · exact next_of_led (led_append (Image.led_placedOps h 0) hfinish) (hops hop) hsets (hops hop')
  · rcases List.mem_append.1 (List.mem_of_getElem? (hops hop)) with hop | hop
    · exact hquiet (Image.led_target h hresolves hop htarget) op' (hops hop')
    · cases List.mem_singleton.1 hop
      cases htarget
  · have hp : (Image.placedEntries 0 a.procs)[i]? = some p := (List.getElem?_toArray ..).symm.trans hp
    exact hquiet (Image.led_entry h haddressed (List.mem_of_getElem? hp)) op (hops hop)

/-- In the code of a tree program a branch on the flag follows an instruction of its activation that sets
the flag. -/
theorem led_of_toImage [Regex.Engine] {tree : Tree} {shareSlots : Bool} {image : Image}
    (himage : tree.toImage shareSlots = .ok image) {exe : Executable}
    (hexe : Executable.ofImage image = .ok exe) : exe.Led := by
  simp only [Tree.toImage, except_bind_eq_ok, mapError_eq_ok] at himage
  obtain ⟨graph, -, flat, -, facts, -, a, ha, himage⟩ := himage
  exact led_of_assembly (Assembly.ledAll_of_ofFlat ha) himage hexe

end JsonSieve
