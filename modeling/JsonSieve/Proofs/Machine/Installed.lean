import JsonSieve.Proofs.Assembly.Emitted
import JsonSieve.Proofs.Machine.Progress

/-!
# Frames in an executable

A frame of a graph is at home somewhere in an executable: its blocks have addresses, and the instructions
of what remains of a block stand where control is (`Home.Stands`). The slots of an activation hold what the
frame knows (`Holds`). `At` puts this together: a machine stands at a position of the text and at a place of
a frame, with the frame in some state.
-/

namespace JsonSieve

namespace Machine

open Assembly Running

/-! ## Addresses -/

/-- Where a frame is at home: what its statements refer to, the table of numbers, its procedure and where
that begins, and the statements of its blocks. -/
structure Home where
  scope : Scope
  floats : List Binary64
  start : Nat
  proc : Procedure
  code : Nat → List Stmt

namespace Home

def address (h : Home) (b : Nat) : Nat := h.start + (h.proc.labels[b]?).getD 0

/-- There is such a block, and its address fits a word. -/
def Has (h : Home) (b : Nat) : Prop := b < h.proc.labels.length ∧ h.address b < Nat.pow 2 32

def Loads (exe : Executable) (h : Home) (ops : List Op) (pc : Nat) : Prop :=
  ∀ j op, ops[j]? = some op → exe.ops[pc + j]? = some (op.placed h.start h.proc) ∧ ∀ b, op.a = .label b → h.Has b.toNat

/-- What remains of a block holds nothing behind a terminator, and the votes of every split fit a word. -/
structure Proper (h : Home) (k : List Stmt) : Prop where
  shut : ∀ before st after, k = before ++ st :: after → st.isTerminator = true → after = []
  narrow : ∀ bv i ids, .splitBits bv i ∈ k → h.scope.decls.splits[i]? = some ids → ids.length ≤ 64

/-- The instructions of what remains of a block stand at an address. If the block is not the last one,
the next one follows. -/
def Stands (exe : Executable) (h : Home) (k : List Stmt) (pc : Nat) : Prop :=
  ∃ next ops, h.scope.code next k h.floats = .ok (ops, h.floats) ∧ h.Loads exe ops pc ∧
    (∀ b, next = some b → b < h.proc.labels.length ∧ pc + ops.length = h.address b) ∧ h.Proper k

variable {exe : Executable} {h : Home}

variable {ops : List Op} {pc : Nat}

theorem Loads.head {op : Op} (hl : h.Loads exe (op :: ops) pc) :
    exe.ops[pc]? = some (op.placed h.start h.proc) ∧ (∀ b, op.a = .label b → h.Has b.toNat) ∧
      h.Loads exe ops (pc + 1) := by
  refine ⟨(hl 0 op rfl).1, (hl 0 op rfl).2, fun j op' hop' => ?_⟩
  rw [Nat.add_assoc, Nat.add_comm 1 j]
  exact hl (j + 1) op' hop'

theorem Loads.left {ops' : List Op} (hl : h.Loads exe (ops ++ ops') pc) : h.Loads exe ops pc := by
  intro j op hop
  refine hl j op ?_
  rw [List.getElem?_append_left (List.getElem?_eq_some_iff.1 hop).1]
  exact hop

theorem Loads.right {ops' : List Op} (hl : h.Loads exe (ops ++ ops') pc) : h.Loads exe ops' (pc + ops.length) := by
  intro j op hop
  rw [Nat.add_assoc]
  refine hl (ops.length + j) op ?_
  rw [List.getElem?_append_right (Nat.le_add_right _ _), Nat.add_sub_cancel_left]
  exact hop

theorem Proper.tail {st : Stmt} {k : List Stmt} (hp : h.Proper (st :: k)) : h.Proper k where
  shut before st' after heq hterm := hp.shut (st :: before) st' after (by rw [heq]; rfl) hterm
  narrow bv i ids hmem := hp.narrow bv i ids (.tail _ hmem)

/-- The instructions of a statement, and behind them those of the rest. Where the statement ends the
block, the next block follows it. -/
theorem Stands.cons {st : Stmt} {k : List Stmt} (hs : h.Stands exe (st :: k) pc) :
    ∃ next ops, h.scope.stmt next st h.floats = .ok (ops, h.floats) ∧ h.Loads exe ops pc ∧
      h.Stands exe k (pc + ops.length) ∧ (st.isTerminator = true → ∀ b, next = some b →
        b < h.proc.labels.length ∧ pc + ops.length = h.address b) := by
  obtain ⟨next, all, hcode, hloads, hnext, hproper⟩ := hs
  rw [code_cons] at hcode
  obtain ⟨ops, hst, hcode⟩ := (h.scope.emits_stmt next st).stable.bind_eq_ok
    (fun _ => (h.scope.stable_code next k).bind fun _ => .pure _) hcode
  obtain ⟨rest, hrest, hall⟩ := (h.scope.stable_code next k).bind_eq_ok (fun _ => .pure _) hcode
  cases hall
  rw [List.length_append, ← Nat.add_assoc] at hnext
  refine ⟨next, ops, hst, hloads.left, ⟨next, rest, hrest, hloads.right, hnext, hproper.tail⟩, ?_⟩
  intro hterm b hb
  obtain rfl := hproper.shut [] st k rfl hterm
  cases hrest
  exact hnext b hb

/-- A frame has been installed: every block stands at its address, every temporary has a slot of its own,
and all numbers fit words. -/
structure Installed (exe : Executable) (h : Home) : Prop where
  block : ∀ b < h.proc.labels.length, h.Stands exe (h.code b) (h.address b)
  colours_nodup : h.scope.colours.Nodup
  labels_lt : h.proc.labels.length < Nat.pow 2 32
  slots_lt : h.scope.slots < Nat.pow 2 32
  floats_eq : exe.floats = h.floats.toArray
  floats_lt : h.floats.length < Nat.pow 2 32

end Home

theorem saturate_lt {n size : Nat} (h : (Word.saturate n).toNat < size) (hsize : size < Nat.pow 2 32) :
    n < Nat.pow 2 32 := by
  apply Decidable.byContradiction
  intro hn
  rw [Word.saturate, if_neg hn] at h
  have hmax : (0xffffffff : UInt32).toNat = Nat.pow 2 32 - 1 := by decide
  omega

theorem Home.Installed.label {exe : Executable} {h : Home} (hi : h.Installed exe) {b : Nat}
    (hb : h.Has (Word.saturate b).toNat) : b < h.proc.labels.length ∧
      ∃ w, (Scope.label b).placed h.start h.proc = .address w ∧ w.toNat = h.address b := by
  have hlt := saturate_lt hb.1 hi.labels_lt
  obtain ⟨hblock, haddress⟩ := hb
  rw [toNat_saturate hlt] at hblock haddress
  refine ⟨hblock, UInt32.ofNat (h.address b), ?_, UInt32.toNat_ofNat_of_lt' haddress⟩
  rw [Scope.label, Operand.placed, toNat_saturate hlt, Home.address]

/-! ## Slots -/

structure Holds (s : Scope) (a : Activation) (σ : State) : Prop where
  size_eq : a.slots.size = s.slots
  count : ∀ c < s.decls.counters.length, a.slots[c]? = some (σ.counts c)
  word : ∀ bv < s.decls.bitvecs.length, a.slots[s.firstBitvec + bv]? = some (σ.words bv)
  seen : ∀ u < s.decls.uniques, (a.seen.lookup (Word.saturate (s.firstUnique + u))).getD .empty = σ.seen u
  temp : ∀ t colour w, s.colours[t]? = some colour → σ.temps t = some w → a.slots[s.firstTemp + colour]? = some w

section

variable {s : Scope} {a : Activation} {σ : State}

theorem Holds.congr (h : Holds s a σ) (proc : UInt32) (pc : Nat) (p : Position) :
    Holds s { a with proc, pc } (σ.moveTo p) :=
  ⟨h.size_eq, h.count, h.word, h.seen, h.temp⟩

theorem Holds.to (h : Holds s a σ) (pc : Nat) : Holds s { a with pc } σ :=
  h.congr a.proc pc σ.position

theorem Holds.setTemp (h : Holds s a σ) (hcolours : s.colours.Nodup) {t colour : Nat}
    (ht : s.colours[t]? = some colour) (w : Int64) :
    Holds s { a with slots := a.slots.setIfInBounds (s.firstTemp + colour) w } (σ.setTemp t w) := by
  obtain ⟨hbv, hu, hfirst, -⟩ := s.bounds
  refine ⟨by simpa using h.size_eq, fun c hc => ?_, fun bv hbv => ?_, h.seen, fun t' colour' w' ht' hw' => ?_⟩
  · rw [Array.getElem?_setIfInBounds_ne (by omega)]
    exact h.count c hc
  · rw [Array.getElem?_setIfInBounds_ne (by omega)]
    exact h.word bv hbv
  · by_cases heq : t' = t
    · subst heq
      rw [ht] at ht'
      cases ht'
      rw [Array.getElem?_setIfInBounds_self_of_lt (by rw [h.size_eq]; exact Scope.temp_lt ht)]
      have hsame : Function.update σ.temps t' (some w) t' = some w' := hw'
      rwa [Function.update_self] at hsame
    · have hne : colour' ≠ colour := by
        rintro rfl
        have hlt' := (List.getElem?_eq_some_iff.1 ht').1
        exact heq ((List.getElem?_inj hlt' hcolours).1 (ht'.trans ht.symm))
      rw [Array.getElem?_setIfInBounds_ne (by omega)]
      have hsame : Function.update σ.temps t (some w) t' = some w' := hw'
      rw [Function.update_of_ne heq] at hsame
      exact h.temp t' colour' w' ht' hsame

theorem Holds.setCount (h : Holds s a σ) {c : Nat} (hc : c < s.decls.counters.length) (w : Int64) :
    Holds s { a with slots := a.slots.setIfInBounds c w } (σ.setCount c w) := by
  obtain ⟨hbv, hu, ht, hle⟩ := s.bounds
  refine ⟨by simpa using h.size_eq, fun c' hc' => ?_, fun bv hbv => ?_, h.seen, fun t colour w' ht' hw' => ?_⟩
  · by_cases heq : c' = c
    · subst heq
      rw [Array.getElem?_setIfInBounds_self_of_lt (by rw [h.size_eq]; omega)]
      simp [State.setCount]
    · rw [Array.getElem?_setIfInBounds_ne (Ne.symm heq), h.count c' hc']
      simp [State.setCount, heq]
  · rw [Array.getElem?_setIfInBounds_ne (by omega)]
    exact h.word bv hbv
  · rw [Array.getElem?_setIfInBounds_ne (by omega)]
    exact h.temp t colour w' ht' hw'

theorem Holds.setWord (h : Holds s a σ) {bv : Nat} (hbv : bv < s.decls.bitvecs.length) (w : Int64) :
    Holds s { a with slots := a.slots.setIfInBounds (s.firstBitvec + bv) w } (σ.setWord bv w) := by
  obtain ⟨hfirst, hu, ht, hle⟩ := s.bounds
  refine ⟨by simpa using h.size_eq, fun c hc => ?_, fun bv' hbv' => ?_, h.seen, fun t colour w' ht' hw' => ?_⟩
  · rw [Array.getElem?_setIfInBounds_ne (by omega)]
    exact h.count c hc
  · by_cases heq : bv' = bv
    · subst heq
      rw [Array.getElem?_setIfInBounds_self_of_lt (by rw [h.size_eq]; omega)]
      simp [State.setWord]
    · rw [Array.getElem?_setIfInBounds_ne (by omega), h.word bv' hbv']
      simp [State.setWord, heq]
  · rw [Array.getElem?_setIfInBounds_ne (by omega)]
    exact h.temp t colour w' ht' hw'

theorem lookup_filter_ne {slot slot' : UInt32} (hne : slot' ≠ slot) (list : List (UInt32 × ValueSet)) :
    (list.filter (·.1 ≠ slot)).lookup slot' = list.lookup slot' := by
  induction list with
  | nil => rfl
  | cons entry list ih =>
    obtain ⟨i, set⟩ := entry
    by_cases hi : i = slot
    · rw [List.filter_cons_of_neg (by simpa using hi), ih, List.lookup_cons,
        show (slot' == i) = false from beq_false_of_ne (by rw [hi]; exact hne)]
    · rw [List.filter_cons_of_pos (by simpa using hi), List.lookup_cons, List.lookup_cons, ih]

theorem Holds.mark (h : Holds s a σ) {u : Nat} (hu : u < s.decls.uniques) (hslots : s.slots < Nat.pow 2 32)
    (v : String) :
    (Activation.insertSeen (Word.saturate (s.firstUnique + u)) v a).2 = !(σ.seen u).contains v ∧
      Holds s (Activation.insertSeen (Word.saturate (s.firstUnique + u)) v a).1 (σ.mark u v) ∧
      (Activation.insertSeen (Word.saturate (s.firstUnique + u)) v a).1.pc = a.pc := by
  obtain ⟨hfirst, hfirst', ht, hle⟩ := s.bounds
  rw [Activation.insertSeen, State.mark, h.seen u hu]
  by_cases hv : (σ.seen u).contains v = true
  · rw [if_pos hv, if_pos hv]
    refine ⟨by rw [hv]; rfl, h, rfl⟩
  · rw [if_neg hv, if_neg hv]
    refine ⟨by rw [Bool.not_eq_true] at hv; rw [hv]; rfl, ⟨h.size_eq, h.count, h.word, ?_, h.temp⟩, rfl⟩
    intro u' hu'
    by_cases heq : u' = u
    · subst heq
      simp
    · have hslot : Word.saturate (s.firstUnique + u') ≠ Word.saturate (s.firstUnique + u) := by
        intro hsame
        have htoNat := congrArg UInt32.toNat hsame
        rw [toNat_saturate (by omega), toNat_saturate (by omega)] at htoNat
        omega
      rw [List.lookup_cons, show (Word.saturate (s.firstUnique + u') ==
        Word.saturate (s.firstUnique + u)) = false from beq_false_of_ne hslot]
      dsimp only
      rw [lookup_filter_ne hslot, Function.update_of_ne heq]
      exact h.seen u' hu'

end

/-! ## Places -/

/-- What stays while a frame runs: the executable, the end of the text, the tokens and splits around the
frame and the activations below it. -/
structure Ground where
  exe : Executable
  broken : Bool
  whole : List Token
  splits : List Split
  below : List Activation

/-- A machine is in a frame in some state, with the given activation on top. -/
structure In (G : Ground) (h : Home) (m : Machine) (σ : State) (a : Activation) : Prop extends
    Reads G.broken G.whole G.splits m σ.position where
  frames_eq : m.frames = a :: G.below
  holds : Holds h.scope a σ

def At (G : Ground) (h : Home) (m : Machine) (σ : State) (k : List Stmt) : Prop :=
  ∃ a, In G h m σ a ∧ h.Stands G.exe k a.pc

section

variable {G : Ground} {h : Home} {m : Machine} {σ : State} {a : Activation} {deep : Prop}
  {P : Machine → Prop}

theorem In.step (hin : In G h m σ a) {op : Op} (hop : G.exe.ops[a.pc]? = some op) {m' : Machine}
    {events : List Event} (hexecute : m.execute G.exe a.pc op = ⟨m', events, .run⟩)
    (hgets : Gets G.exe deep m' P) : Gets G.exe deep m P := by
  obtain ⟨hnext, hmachine⟩ := move_op hin.started hin.free hin.frames_eq hop
  rw [hexecute] at hnext hmachine
  exact .step hnext hmachine hgets

theorem In.framed (hin : In G h m σ a) {a' : Activation} {σ' : State} (hholds : Holds h.scope a' σ')
    (hposition : σ'.position = σ.position) (flag : Bool) (lastCase : Int64) :
    In G h { m with frames := a' :: G.below, flag, lastCase } σ' a' := by
  refine ⟨?_, rfl, hholds⟩
  rw [hposition]
  exact hin.toReads.congr _ flag lastCase

theorem In.next (hin : In G h m σ a) : In G h m.advance σ { a with pc := a.pc + 1 } := by
  rw [advance_eq hin.frames_eq]
  exact hin.framed (hin.holds.to _) rfl m.flag m.lastCase

theorem In.goTo (hin : In G h m σ a) (pc : Nat) : In G h (m.goTo pc) σ { a with pc } := by
  rw [goTo_eq hin.frames_eq]
  exact hin.framed (hin.holds.to _) rfl m.flag m.lastCase

variable {b : Nat}

theorem In.at_block (hin : In G h m σ a) (hi : h.Installed G.exe)
    (hb : b < h.proc.labels.length) (hpc : a.pc = h.address b) : At G h m σ (h.code b) :=
  ⟨a, hin, by rw [hpc]; exact hi.block b hb⟩

variable {ops : List Op}

theorem In.jumps (hin : In G h m σ a) (hi : h.Installed G.exe) {code : Opcode}
    (hl : h.Loads G.exe (⟨code, Scope.label b, .none⟩ :: ops) a.pc)
    (hexecute : m.execute G.exe a.pc (Op.placed h.start h.proc ⟨code, Scope.label b, .none⟩) =
      m.jump a.pc ((Scope.label b).placed h.start h.proc)) :
    Gets G.exe deep m fun m' => At G h m' σ (h.code b) := by
  obtain ⟨hop, hhas, -⟩ := hl.head
  obtain ⟨hb, w, hw, haddress⟩ := hi.label (hhas _ rfl)
  rw [hw] at hexecute
  exact hin.step hop hexecute (.here ((hin.goTo w.toNat).at_block hi hb haddress))

theorem In.branch (hin : In G h m σ a) (hi : h.Installed G.exe)
    (hl : h.Loads G.exe [⟨.branch, Scope.label b, .none⟩] a.pc) :
    Gets G.exe deep m fun m' => At G h m' σ (h.code b) :=
  hin.jumps hi hl rfl

theorem In.branchIfSet (hin : In G h m σ a) (hi : h.Installed G.exe)
    (hl : h.Loads G.exe (⟨.branchIfSet, Scope.label b, .none⟩ :: ops) a.pc) :
    Gets G.exe deep m fun m' => if m.flag then At G h m' σ (h.code b)
      else In G h m' σ { a with pc := a.pc + 1 } := by
  have hexecute : m.execute G.exe a.pc (Op.placed h.start h.proc ⟨.branchIfSet, Scope.label b, .none⟩) =
      if m.flag then m.jump a.pc ((Scope.label b).placed h.start h.proc)
      else ⟨m.advance, [], .run⟩ := rfl
  cases hflag : m.flag with
  | true =>
    rw [hflag] at hexecute
    exact hin.jumps hi hl hexecute
  | false =>
    rw [hflag] at hexecute
    exact hin.step hl.head.1 hexecute (.here hin.next)

theorem In.branchIfClear (hin : In G h m σ a) (hi : h.Installed G.exe)
    (hl : h.Loads G.exe (⟨.branchIfClear, Scope.label b, .none⟩ :: ops) a.pc) :
    Gets G.exe deep m fun m' => if m.flag then In G h m' σ { a with pc := a.pc + 1 }
      else At G h m' σ (h.code b) := by
  have hexecute : m.execute G.exe a.pc (Op.placed h.start h.proc ⟨.branchIfClear, Scope.label b, .none⟩) =
      if m.flag then ⟨m.advance, [], .run⟩
      else m.jump a.pc ((Scope.label b).placed h.start h.proc) := rfl
  cases hflag : m.flag with
  | true =>
    rw [hflag] at hexecute
    exact hin.step hl.head.1 hexecute (.here hin.next)
  | false =>
    rw [hflag] at hexecute
    exact hin.jumps hi hl hexecute

theorem In.flagBranches (hin : In G h m σ a) (hi : h.Installed G.exe) {next : Option Nat}
    {onSet onClear : Nat} (hl : h.Loads G.exe (Scope.flagBranches next onSet onClear) a.pc)
    (hnext : ∀ b, next = some b → b < h.proc.labels.length ∧
      a.pc + (Scope.flagBranches next onSet onClear).length = h.address b) :
    Gets G.exe deep m fun m' => At G h m' σ (h.code (if m.flag then onSet else onClear)) := by
  rw [Scope.flagBranches] at hl hnext
  by_cases hclear : some onClear = next
  · rw [if_pos hclear] at hl hnext
    obtain ⟨hb, hpc⟩ := hnext onClear hclear.symm
    refine (hin.branchIfSet hi hl).mono fun m' h' => ?_
    cases hflag : m.flag with
    | true =>
      rw [hflag] at h'
      exact h'
    | false =>
      rw [hflag] at h'
      exact In.at_block h' hi hb hpc
  · rw [if_neg hclear] at hl hnext
    by_cases hset : some onSet = next
    · rw [if_pos hset] at hl hnext
      obtain ⟨hb, hpc⟩ := hnext onSet hset.symm
      refine (hin.branchIfClear hi hl).mono fun m' h' => ?_
      cases hflag : m.flag with
      | true =>
        rw [hflag] at h'
        exact In.at_block h' hi hb hpc
      | false =>
        rw [hflag] at h'
        exact h'
    · rw [if_neg hset] at hl
      refine (hin.branchIfSet hi hl).bind fun m' h' => ?_
      cases hflag : m.flag with
      | true =>
        rw [hflag] at h'
        exact .here h'
      | false =>
        rw [hflag] at h'
        exact In.branch h' hi hl.head.2.2

end

end Machine

end JsonSieve
