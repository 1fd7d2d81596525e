import JsonSieve.Proofs.Machine.Loaded
import JsonSieve.Proofs.Machine.Lookahead
import JsonSieve.Proofs.Number.Bits
import JsonSieve.Regex.Builtin

/-!
# What a split does

A split that ends has changed nothing but the slot for its result, and the result tells which of its
procedures return 0 when each is called alone from where the split began
(`Machine.split_looks_ahead`). In between the machine may wait and get more of its text
(`Machine.Splitting`). The order of the procedures does not matter for their count, and a bit moves with its
procedure.
-/

namespace JsonSieve

namespace Absolute

variable {exe : Executable} {stream : Stream} {a : Absolute} {op : Op} {top : Activation}
  {below : List Activation}

/-! ## Results -/

open Classical in
/-- The result of a split over procedures, where a state stands in the stream: how many of them return 0
when they are called alone, or the bits of those that do. -/
noncomputable def splitResult (exe : Executable) (stream : Stream) (a : Absolute) (bits : Bool)
    (procs : List UInt32) : Int64 :=
  Machine.tally bits 0 (procs.map fun proc => decide (ReturnsAlone exe stream a proc 0)) 0

variable {bits : Bool} {procs : List UInt32}

theorem splitResult_of_returns {codes : List Int64} (h : List.Forall₂ (ReturnsAlone exe stream a) procs codes) :
    splitResult exe stream a bits procs = Machine.tally bits 0 (codes.map vote) 0 := by
  unfold splitResult
  congr 1
  induction h with
  | nil => rfl
  | cons hcode _ ih =>
    rw [List.map_cons, List.map_cons, ih]
    congr 1
    refine decide_eq_decide.2 ⟨fun hzero => hcode.unique hzero, fun hzero => ?_⟩
    rw [← hzero]
    exact hcode

theorem splitResult_count (procs : List UInt32) : splitResult exe stream a false procs =
    Int64.ofNat (procs.countP fun proc => @decide (ReturnsAlone exe stream a proc 0) (Classical.dec _)) := by
  unfold splitResult
  rw [show (0 : Int64) = Int64.ofNat 0 from rfl, Machine.tally_count, Nat.zero_add, List.count, List.countP_map]
  congr 2
  funext proc
  simp

theorem splitResult_bits (hsmall : procs.length ≤ 64) (i : Nat) :
    Word.hasBit (splitResult exe stream a true procs) i = true ↔
      ∃ proc, procs[i]? = some proc ∧ ReturnsAlone exe stream a proc 0 := by
  unfold splitResult
  rw [Machine.tally_bits, Word.hasBit_votesWord _ (by rw [List.length_map]; omega), Word.hasBit_zero,
    Nat.sub_zero, List.getD_eq_getElem?_getD, List.getElem?_map]
  cases procs[i]? with
  | none => simp
  | some proc => simp

theorem splitResult_perm {procs' : List UInt32} (h : procs'.Perm procs) :
    splitResult exe stream a false procs' = splitResult exe stream a false procs := by
  rw [splitResult_count, splitResult_count, h.countP_eq]

theorem splitResult_moves {procs' : List UInt32} (h : procs'.Perm procs) (hsmall : procs.length ≤ 64)
    {i j : Nat} {proc : UInt32} (hi : procs'[i]? = some proc) (hj : procs[j]? = some proc) :
    Word.hasBit (splitResult exe stream a true procs') i = Word.hasBit (splitResult exe stream a true procs) j := by
  rw [Bool.eq_iff_iff, splitResult_bits (h.length_eq.trans_le hsmall), splitResult_bits hsmall, hi, hj]

/-! ## Splits of the absolute machine -/

/-- A split that begins stores 0, or is inside of its first branch. -/
theorem startSplit_run (hexe : exe.Led) {list target : UInt32} {pc : Nat} {e : Absolute}
    (h : a.startSplit exe pc bits list target top below = .run e) (flag : Bool) :
    target.toNat < top.slots.size ∧ (bits = true → ((exe.splits[list.toNat]?).getD #[]).size ≤ 64) ∧
    (((exe.splits[list.toNat]?).getD #[])[0]? = none ∧ e = { a with frames :=
        { top with pc := top.pc + 1, slots := top.slots.setIfInBounds target.toNat 0 } :: below } ∨
    ∃ proc b s, ((exe.splits[list.toNat]?).getD #[])[0]? = some proc ∧
      s = { split := list, bits, target, depth := below.length + 1, cursor := a.position, token := a.current
            lastCase := a.lastCase } ∧ enter exe 0 proc (ofSplit s flag) = .run b ∧
      Inside exe ({ top with pc := top.pc + 1 } :: below) (s :: a.splits) e b) := by
  unfold startSplit at h
  split at h
  · cases h
  · next hslot =>
    dsimp only at h
    split at h
    · cases h
    · next hsmall =>
      refine ⟨Nat.lt_of_not_le hslot, fun hbits => Nat.le_of_not_lt fun hbig => hsmall ⟨hbits, hbig⟩, ?_⟩
      cases hproc : ((exe.splits[list.toNat]?).getD #[])[0]? with
      | none =>
        rw [hproc] at h
        refine .inl ⟨rfl, ?_⟩
        replace h : (if target.toNat < top.slots.size then _ else _) = Outcome.run e := h
        rw [if_pos (by omega)] at h
        cases h
        rfl
      | some proc =>
        rw [hproc] at h
        refine .inr ⟨proc, ?_⟩
        obtain ⟨b, hb, hinside⟩ := inside_enter hexe h flag
        exact ⟨b, _, rfl, rfl, hb, hinside⟩

/-- A split that ends leaves the state as it was, with its result in the slot. -/
theorem split_completes (hexe : exe.Led) (hframes : a.frames = top :: below) (hop : exe.ops[top.pc]? = some op)
    (hcode : op.code = if bits then .splitBits else .split) {list target : UInt32} (ha : op.a = .split list)
    (hb : op.b = .slot target) {x a' : Absolute}
    (hrun : Relation.ReflTransGen (Deepens exe stream a.splits.length) a x)
    (hlast : x.step exe stream = .run a') (hdone : a'.splits.length ≤ a.splits.length) (flag : Bool) :
    target.toNat < top.slots.size ∧ (bits = true → ((exe.splits[list.toNat]?).getD #[]).size ≤ 64) ∧
    a' = { a with
      frames := { top with
        pc := top.pc + 1
        slots := top.slots.setIfInBounds target.toNat (splitResult exe stream { a with flag } bits
          ((exe.splits[list.toNat]?).getD #[]).toList) } :: below
      flag := a'.flag } := by
  have hstep : a.step exe stream = a.startSplit exe top.pc bits list target top below := by
    unfold step
    rw [hframes]
    dsimp only
    rw [hop]
    dsimp only
    unfold execute
    cases bits with
    | true =>
      rw [show op.code = .splitBits from hcode, ha, hb]
    | false =>
      rw [show op.code = .split from hcode, ha, hb]
  rcases hrun.cases_head with rfl | ⟨e, ⟨hfirst, hdeep⟩, hrun⟩
  · rw [hstep] at hlast
    obtain ⟨hslot, hsmall, ⟨hnone, rfl⟩ | ⟨proc, b, s, -, -, -, hinside⟩⟩ := startSplit_run hexe hlast flag
    · refine ⟨hslot, hsmall, ?_⟩
      have hnil : ((exe.splits[list.toNat]?).getD #[]).toList = [] := by
        rw [← Array.getElem?_toList, ← List.head?_eq_getElem?, List.head?_eq_none_iff] at hnone
        exact hnone
      rw [hnil]
      rfl
    · have := hinside.splits_length
      omega
  · rw [hstep] at hfirst
    obtain ⟨hslot, hsmall, ⟨hnone, rfl⟩ | ⟨proc, b, s, hproc, hs, henter, hinside⟩⟩ :=
      startSplit_run hexe hfirst flag
    · exact absurd hdeep (Nat.lt_irrefl _)
    · refine ⟨hslot, hsmall, ?_⟩
      obtain ⟨branches, hbranches⟩ : ∃ branches, exe.splits[list.toNat]? = some branches := by
        cases hlist : exe.splits[list.toNat]? with
        | none =>
          rw [hlist] at hproc
          cases hproc
        | some branches => exact ⟨branches, rfl⟩
      rw [hbranches, Option.getD_some] at hproc ⊢
      subst hs
      obtain ⟨code, codes, flag', hcode, hcodes, rfl⟩ :=
        Inside.completes hexe flag hrun hlast hdone hinside rfl hbranches
      have hall : List.Forall₂ (ReturnsAlone exe stream { a with flag }) branches.toList (code :: codes) := by
        have hcons : branches.toList = proc :: branches.toList.drop 1 := by
          rw [← Array.getElem?_toList] at hproc
          obtain ⟨hlt, rfl⟩ := List.getElem?_eq_some_iff.1 hproc
          exact List.drop_eq_getElem_cons hlt
        rw [hcons]
        exact .cons ⟨b, henter, hcode⟩ hcodes
      rw [splitResult_of_returns hall]
      rfl

end Absolute

namespace Machine

/-! ## Splits of the machine -/

/-- From the instruction at which `m₀` stands the machine has come to a state with more splits in progress, and
has got some more text on the way. -/
inductive Splitting (exe : Executable) (m₀ : Machine) : List UInt8 → Machine → Prop where
  | starts (hnext : (m₀.step exe).next = .run) (hdeep : m₀.splits.length < (m₀.step exe).machine.splits.length) :
    Splitting exe m₀ [] (m₀.step exe).machine
  | steps {more : List UInt8} {m : Machine} (h : Splitting exe m₀ more m) (hnext : (m.step exe).next = .run)
    (hdeep : m₀.splits.length < (m.step exe).machine.splits.length) :
    Splitting exe m₀ more (m.step exe).machine
  | waits {more : List UInt8} {m : Machine} (h : Splitting exe m₀ more m)
    (hnext : (m.step exe).next = .suspend) : Splitting exe m₀ more (m.step exe).machine
  | feed {more : List UInt8} {m : Machine} (h : Splitting exe m₀ more m) (hopen : m.input.closed = false)
    (bytes : List UInt8) : Splitting exe m₀ (more ++ bytes) (m.feed bytes)
  | close {more : List UInt8} {m : Machine} (h : Splitting exe m₀ more m) : Splitting exe m₀ more m.close
  | clock {more : List UInt8} {m : Machine} (h : Splitting exe m₀ more m) (time : Nat) :
    Splitting exe m₀ more { m with meter := m.meter.atTime time }

/-- The split at which `m₀` stands has ended: no more splits are in progress than before. -/
inductive Completes (exe : Executable) (m₀ : Machine) : List UInt8 → Machine → Prop where
  | atOnce (hnext : (m₀.step exe).next = .run)
    (hdone : (m₀.step exe).machine.splits.length ≤ m₀.splits.length) :
    Completes exe m₀ [] (m₀.step exe).machine
  | atLast {more : List UInt8} {m : Machine} (h : Splitting exe m₀ more m) (hnext : (m.step exe).next = .run)
    (hdone : (m.step exe).machine.splits.length ≤ m₀.splits.length) :
    Completes exe m₀ more (m.step exe).machine

section

variable {exe : Executable} {meter : Meter} {n : Nat} {text more rest : List UInt8} {m₀ m m' : Machine}

theorem Splitting.reaches (h : Splitting exe m₀ more m) (hm₀ : Reaches exe meter n text m₀)
    (hstarted : m₀.started = true) : m.started = true ∧ ∃ k, Reaches exe meter k (text ++ more) m := by
  induction h with
  | starts hnext hdeep =>
    rw [List.append_nil]
    exact ⟨(step_settles exe m₀).started_eq.trans hstarted, _, hm₀.steps hstarted hnext⟩
  | steps _ hnext _ ih =>
    obtain ⟨hstarted, k, hm⟩ := ih
    exact ⟨(step_settles exe _).started_eq.trans hstarted, _, hm.steps hstarted hnext⟩
  | waits _ hnext ih =>
    obtain ⟨hstarted, k, hm⟩ := ih
    exact ⟨(step_settles exe _).started_eq.trans hstarted, _, hm.waits hstarted hnext⟩
  | feed _ hopen bytes ih =>
    obtain ⟨hstarted, k, hm⟩ := ih
    rw [← List.append_assoc]
    exact ⟨hstarted, k, hm.feed hopen bytes⟩
  | close _ ih =>
    obtain ⟨hstarted, k, hm⟩ := ih
    exact ⟨hstarted, k, hm.close⟩
  | clock _ time ih =>
    obtain ⟨hstarted, k, hm⟩ := ih
    exact ⟨hstarted, k, hm.clock time⟩

theorem Splitting.closed (h : Splitting exe m₀ more m) (hm₀ : Reaches exe meter n text m₀)
    (hstarted : m₀.started = true) (hclosed : m₀.input.closed = true) :
    more = [] ∧ m.input.closed = true := by
  induction h with
  | starts hnext hdeep => exact ⟨rfl, ((step_onward exe m₀).closed_eq hm₀.sound).trans hclosed⟩
  | steps h hnext _ ih | waits h hnext ih =>
    obtain ⟨-, k, hm⟩ := h.reaches hm₀ hstarted
    exact ⟨ih.1, ((step_onward exe _).closed_eq hm.sound).trans ih.2⟩
  | feed _ hopen bytes ih =>
    rw [ih.2] at hopen
    cases hopen
  | close _ ih => exact ⟨ih.1, rfl⟩
  | clock _ time ih => exact ih

theorem Splitting.shows (h : Splitting exe m₀ more m) (hm₀ : Reaches exe meter n text m₀)
    (hstarted : m₀.started = true) {stream : Stream} {a0 : Absolute} :
    ∀ {rest : List UInt8}, (m.input.closed = true → rest = []) → Shows exe stream (more ++ rest) m₀ a0 →
      ∃ a, Relation.ReflTransGen (Absolute.Deepens exe stream m₀.splits.length) a0 a ∧ Shows exe stream rest m a := by
  -- A step that goes on and leaves more splits in progress is one step of the absolute machine.
  have hdeepens : ∀ {rest : List UInt8} {m : Machine} {a : Absolute}, Shows exe stream rest m a →
      (m.step exe).next = .run → m₀.splits.length < (m.step exe).machine.splits.length →
      ∃ a', Absolute.Deepens exe stream m₀.splits.length a a' ∧ Shows exe stream rest (m.step exe).machine a' := by
    intro rest m a hshows hnext hdeep
    obtain ⟨a', base, ha', hrests⟩ := hshows.step.realizes.of_run hnext
    refine ⟨a', ⟨ha', ?_⟩, .inl ⟨base, hrests⟩⟩
    rwa [hrests.splits_eq, List.length_map]
  induction h with
  | starts hnext hdeep =>
    intro rest _ hshows
    obtain ⟨a, hdeepens, hshows⟩ := hdeepens hshows hnext hdeep
    exact ⟨a, .single hdeepens, hshows⟩
  | steps h hnext hdeep ih =>
    intro rest hrest hshows
    obtain ⟨-, k, hm⟩ := h.reaches hm₀ hstarted
    rw [(step_onward exe _).closed_eq hm.sound] at hrest
    obtain ⟨a, hrun, hshows⟩ := ih hrest hshows
    obtain ⟨a', hlast, hshows⟩ := hdeepens hshows hnext hdeep
    exact ⟨a', hrun.tail hlast, hshows⟩
  | waits h hnext ih =>
    intro rest hrest hshows
    obtain ⟨-, k, hm⟩ := h.reaches hm₀ hstarted
    rw [(step_onward exe _).closed_eq hm.sound] at hrest
    obtain ⟨a, hrun, hshows⟩ := ih hrest hshows
    exact ⟨a, hrun, hshows.step.waits hnext⟩
  | @feed more m h hopen bytes ih =>
    intro rest hrest hshows
    rw [List.append_assoc] at hshows
    obtain ⟨a, hrun, hshows⟩ := ih (by rw [hopen]; nofun) hshows
    exact ⟨a, hrun, hshows.relabel (m.input.feed bytes) m.meter fun _ => Lexer.Awaits.feed⟩
  | @close more m h ih =>
    intro rest hrest hshows
    obtain rfl : rest = [] := hrest rfl
    obtain ⟨a, hrun, hshows⟩ := ih (fun _ => rfl) hshows
    exact ⟨a, hrun, hshows.relabel m.input.close m.meter fun _ => awaits_close⟩
  | @clock more m h time ih =>
    intro rest hrest hshows
    obtain ⟨a, hrun, hshows⟩ := ih hrest hshows
    exact ⟨a, hrun, hshows.relabel m.input (m.meter.atTime time) fun _ => id⟩

theorem Completes.shows (h : Completes exe m₀ more m') (hm₀ : Reaches exe meter n text m₀)
    (hstarted : m₀.started = true) (hrest : m'.input.closed = true → rest = []) {stream : Stream}
    {a0 : Absolute} (hshows : Shows exe stream (more ++ rest) m₀ a0) :
    ∃ x a' base, Relation.ReflTransGen (Absolute.Deepens exe stream m₀.splits.length) a0 x ∧
      x.step exe stream = .run a' ∧ Rests stream rest base m' a' ∧ m'.splits.length ≤ m₀.splits.length := by
  cases h with
  | atOnce hnext hdone =>
    obtain ⟨a', base, ha', hrests⟩ := hshows.step.realizes.of_run hnext
    exact ⟨a0, a', base, .refl, ha', hrests, hdone⟩
  | atLast h hnext hdone =>
    obtain ⟨-, k, hm⟩ := h.reaches hm₀ hstarted
    rw [(step_onward exe _).closed_eq hm.sound] at hrest
    obtain ⟨x, hrun, hshows⟩ := h.shows hm₀ hstarted hrest hshows
    obtain ⟨a', base, ha', hrests⟩ := hshows.step.realizes.of_run hnext
    exact ⟨x, a', base, hrun, ha', hrests, hdone⟩

theorem Completes.closed (h : Completes exe m₀ more m') (hm₀ : Reaches exe meter n text m₀)
    (hstarted : m₀.started = true) (hclosed : m₀.input.closed = true) :
    more = [] ∧ m'.input.closed = true := by
  cases h with
  | atOnce hnext hdone => exact ⟨rfl, ((step_onward exe m₀).closed_eq hm₀.sound).trans hclosed⟩
  | atLast h hnext hdone =>
    obtain ⟨-, k, hm⟩ := h.reaches hm₀ hstarted
    obtain ⟨hmore, hclosed⟩ := h.closed hm₀ hstarted hclosed
    exact ⟨hmore, ((step_onward exe _).closed_eq hm.sound).trans hclosed⟩

/-- A split of compiled code looks ahead. When it has ended, the machine is at its place in the stream, with its
token, its last case and its activations as before; only the caller has gone on, with the result in its
slot. The result counts the procedures that return 0 when they are called alone from that place, or has
their bits, whatever the flag is. Another order of the procedures gives the same count and moves the bits. -/
theorem split_looks_ahead [Regex.Engine] {tree : Tree} {shareSlots : Bool} {image : Image}
    (himage : tree.toImage shareSlots = .ok image) (hexe : Executable.ofImage image = .ok exe)
    (hm₀ : Reaches exe meter n text m₀) {top : Activation} {below : List Activation}
    (hframes : m₀.frames = top :: below) {op : Op} (hop : exe.ops[top.pc]? = some op) {bits : Bool}
    (hcode : op.code = if bits then .splitBits else .split) {list target : UInt32} (ha : op.a = .split list)
    (hb : op.b = .slot target) (hdone : Completes exe m₀ more m')
    (hrest : m'.input.closed = true → rest = []) :
    ∃ (stream : Stream) (procs : List UInt32) (base base' : Nat) (a : Absolute),
      stream = .ofText (text ++ more ++ rest) ∧ procs = ((exe.splits[list.toNat]?).getD #[]).toList ∧
      Rests stream (more ++ rest) base m₀ a ∧ Rests stream rest base' m' { a with
        frames := m'.frames, flag := m'.flag } ∧
      base' + m'.cursor = base + m₀.cursor ∧ m'.current = m₀.current ∧ m'.lastCase = m₀.lastCase ∧
      target.toNat < top.slots.size ∧ ∀ flag : Bool, ∃ result, m'.frames = { top with
          pc := top.pc + 1, slots := top.slots.setIfInBounds target.toNat result } :: below ∧
        result = Absolute.splitResult exe stream { a with flag } bits procs ∧
        (bits = false → result = Int64.ofNat (procs.countP fun proc =>
          @decide (Absolute.ReturnsAlone exe stream { a with flag } proc 0) (Classical.dec _))) ∧
        (bits = true → ∀ i, Word.hasBit result i = true ↔
          ∃ proc, procs[i]? = some proc ∧ Absolute.ReturnsAlone exe stream { a with flag } proc 0) ∧
        ∀ procs', procs'.Perm procs →
          (bits = false → Absolute.splitResult exe stream { a with flag } bits procs' = result) ∧
          (bits = true → ∀ i j proc, procs'[i]? = some proc → procs[j]? = some proc →
            Word.hasBit (Absolute.splitResult exe stream { a with flag } bits procs') i = Word.hasBit result j) := by
  have hled := led_of_toImage himage hexe
  have hstarted : m₀.started = true := by
    by_contra hnot
    rw [hm₀.frames_nil (Bool.eq_false_iff.2 hnot)] at hframes
    cases hframes
  have hrest0 : m₀.input.closed = true → more ++ rest = [] := fun hclosed => by
    obtain ⟨rfl, hclosed'⟩ := hdone.closed hm₀ hstarted hclosed
    exact hrest hclosed'
  have hshows : ∃ a, Shows exe (.ofText (text ++ more ++ rest)) (more ++ rest) m₀ a := by
    rw [List.append_assoc]
    rcases hm₀.shows hrest0 with ⟨hnot, -⟩ | ⟨-, a, -, hshows⟩
    · rw [hstarted] at hnot
      cases hnot
    · exact ⟨a, hshows⟩
  obtain ⟨a, hshows⟩ := hshows
  obtain ⟨base, hrests⟩ : ∃ base, Rests (.ofText (text ++ more ++ rest)) (more ++ rest) base m₀ a := by
    rcases hshows with hrests | ⟨-, -, ⟨op', hop', hconsume⟩, -⟩
    · exact hrests
    · rw [upNext, hframes, List.head?_cons, Option.bind_some, hop] at hop'
      cases hop'
      rw [hconsume] at hcode
      cases bits <;> cases hcode
  obtain ⟨x, a', base', hrun, hlast, hrests', hlength⟩ := hdone.shows hm₀ hstarted hrest hshows
  have hsplits : a.splits.length = m₀.splits.length := by rw [hrests.splits_eq, List.length_map]
  have hsplits' : a'.splits.length = m'.splits.length := by rw [hrests'.splits_eq, List.length_map]
  rw [← hsplits] at hrun hlength
  have hends := Absolute.split_completes hled (hrests.frames_eq.trans hframes) hop hcode ha hb hrun hlast
    (hsplits'.trans_le hlength)
  have hframes' := hrests'.frames_eq
  have hflag' := hrests'.flag_eq
  have hkept : a' = { a with frames := m'.frames, flag := m'.flag } := by
    rw [← hframes', ← hflag', (hends true).2.2]
  have hsmall : bits = true → ((exe.splits[list.toNat]?).getD #[]).toList.length ≤ 64 := by
    rw [Array.length_toList]
    exact (hends true).2.1
  refine ⟨_, _, base, base', a, rfl, rfl, hrests, hkept ▸ hrests', ?_, ?_, ?_, (hends true).1, fun flag => ?_⟩
  · rw [← hrests'.position_eq, ← hrests.position_eq, hkept]
  · rw [← hrests'.current_eq, ← hrests.current_eq, hkept]
  · rw [← hrests'.lastCase_eq, ← hrests.lastCase_eq, hkept]
  · refine ⟨_, ?_, rfl, ?_, ?_, fun procs' hperm => ⟨?_, ?_⟩⟩
    · rw [← hframes', (hends flag).2.2]
    · rintro rfl
      exact Absolute.splitResult_count _
    · rintro rfl
      exact Absolute.splitResult_bits (hsmall rfl)
    · rintro rfl
      exact Absolute.splitResult_perm hperm
    · rintro rfl i j proc hi hj
      exact Absolute.splitResult_moves hperm (hsmall rfl) hi hj

/-- Asks two frames about the coming value. Only the first of them reads it and accepts. -/
def asksTwice : Stmt := .seq [ .bitvec 0 "votes" 2,
  .splitList 0 [.seq [.token, .valid], .invalid .unexpectedToken], .splitBits 0 0, .valid]

def asksTwiceGraph : Graph := [
  ⟨{ bitvecs := [⟨"votes", 2⟩], splits := [[1, 2]] }, [⟨0, "entry", [.splitBits 0 0, .valid]⟩]⟩,
  ⟨{}, [⟨0, "entry", [.token, .valid]⟩]⟩, ⟨{}, [⟨0, "entry", [.invalid .unexpectedToken]⟩]⟩]

/-- The machine in front of the split of `asksTwice`. -/
def asking (exe : Executable) : Machine := (({ meter := .free } : Machine).move exe).machine

def stepped (exe : Executable) : Nat → Machine → Machine
  | 0, m => m
  | n + 1, m => stepped exe n (m.step exe).machine

/-- The machine inside of the first branch, which has waited there for the text `null `. -/
def answered (exe : Executable) : Machine := (stepped exe 2 (asking exe)).feed [0x6e, 0x75, 0x6c, 0x6c, 0x20]

/-- What the machine does from the split of `asksTwice` to its end. -/
def AsksTwice (exe : Executable) : Prop :=
  (({ meter := .free } : Machine).move exe).next = .run ∧
  (asking exe).frames.map (·.pc) = [0] ∧ exe.ops[0]? = some ⟨.splitBits, .split 0, .slot 0⟩ ∧
  (exe.splits[0]?).getD #[] = #[1, 2] ∧ ((asking exe).step exe).next = .run ∧
  ((stepped exe 1 (asking exe)).step exe).next = .suspend ∧
  (∀ i < 3, ((stepped exe i (answered exe)).step exe).next = .run) ∧
  (asking exe).splits.length = 0 ∧ (∀ i < 2, (stepped exe (i + 1) (asking exe)).splits.length = 1) ∧
  (stepped exe 2 (asking exe)).input.closed = false ∧
  (∀ i < 2, (stepped exe (i + 1) (answered exe)).splits.length = 1) ∧
  (stepped exe 3 (answered exe)).splits.length = 0 ∧ (stepped exe 3 (answered exe)).input.closed = false ∧
  (stepped exe 3 (answered exe)).frames.map (·.slots) = [#[1]]

instance (exe : Executable) : Decidable (AsksTwice exe) := inferInstanceAs (Decidable (_ ∧ _))

theorem split_looks_ahead_waiting : ∃ image exe m₀ m' top,
    Tree.toImage [asksTwice] false = .ok image ∧ Executable.ofImage image = .ok exe ∧
    Reaches exe .free 0 [] m₀ ∧ m₀.frames = [top] ∧ exe.ops[top.pc]? = some ⟨.splitBits, .split 0, .slot 0⟩ ∧
    Completes exe m₀ [0x6e, 0x75, 0x6c, 0x6c, 0x20] m' ∧ m'.input.closed = false ∧
    ∃ a, Absolute.ReturnsAlone exe (.ofText [0x6e, 0x75, 0x6c, 0x6c, 0x20]) a 1 0 ∧
      ¬ Absolute.ReturnsAlone exe (.ofText [0x6e, 0x75, 0x6c, 0x6c, 0x20]) a 2 0 ∧
      Absolute.splitResult exe (.ofText [0x6e, 0x75, 0x6c, 0x6c, 0x20]) a true [1, 2] = 1 := by
  have hgraph : Graph.ofTree [asksTwice] = .ok asksTwiceGraph := by cbv
  have hstages : ((do
      let flat ← (Flat.ofGraph asksTwiceGraph).toOption
      let a ← (Assembly.ofFlat flat none).toOption
      let image ← (Image.ofAssembly a).toOption
      let exe ← (Executable.ofImage image).toOption
      pure (decide (AsksTwice exe))) : Option Bool) = some true := by decide +kernel
  simp only [Option.bind_eq_bind, Option.bind_eq_some_iff, toOption_eq_some, Option.pure_def,
    Option.some.injEq, decide_eq_true_eq] at hstages
  obtain ⟨flat, hflat, a, hassembly, image, himage, exe, hexe, hbegins, hpc, hop, hprocs, hstarts, hwaits, hsteps,
    hnone, hdeep, hopen, hdeep', hdone, hopen', hslots⟩ := hstages
  have himage : Tree.toImage [asksTwice] false = .ok image := by
    simp only [Tree.toImage, except_bind_eq_ok, mapError_eq_ok]
    exact ⟨asksTwiceGraph, hgraph, flat, hflat, none, rfl, a, hassembly, himage⟩
  have hreaches : Reaches exe .free 0 [] (asking exe) := Reaches.start.begins rfl hbegins
  obtain ⟨top, hframes, hpc⟩ : ∃ top, (asking exe).frames = [top] ∧ top.pc = 0 := by
    obtain ⟨top, rest, hframes, hpc, hrest⟩ := List.map_eq_cons_iff.1 hpc
    rw [List.map_eq_nil_iff.1 hrest] at hframes
    exact ⟨top, hframes, hpc⟩
  rw [← hpc] at hop
  have hdeeper : ∀ {m : Machine}, m.splits.length = 1 → (asking exe).splits.length < m.splits.length :=
    fun h => by rw [hnone, h]; exact Nat.one_pos
  have hcompletes : Completes exe (asking exe) [0x6e, 0x75, 0x6c, 0x6c, 0x20] (stepped exe 3 (answered exe)) := by
    have hasked : Splitting exe (asking exe) [] (stepped exe 1 (asking exe)) :=
      .starts hstarts (hdeeper (hdeep 0 (by decide)))
    have hanswered : Splitting exe (asking exe) [0x6e, 0x75, 0x6c, 0x6c, 0x20] (answered exe) :=
      (hasked.waits hwaits).feed hopen _
    have hread := hanswered.steps (hsteps 0 (by decide)) (hdeeper (hdeep' 0 (by decide)))
    have hnext := hread.steps (hsteps 1 (by decide)) (hdeeper (hdeep' 1 (by decide)))
    exact .atLast hnext (hsteps 2 (by decide)) (hdone.trans_le (Nat.zero_le _))
  have hbits : (⟨.splitBits, .split 0, .slot 0⟩ : Op).code = if true then .splitBits else .split := rfl
  have hrest : (stepped exe 3 (answered exe)).input.closed = true → ([] : List UInt8) = [] := fun _ => rfl
  obtain ⟨_, _, base, base', a, rfl, rfl, -, -, -, -, -, hslot, hresult⟩ :=
    split_looks_ahead himage hexe hreaches hframes hop hbits rfl rfl hcompletes hrest
  obtain ⟨result, hframes', hresult, -, hbit, -⟩ := hresult false
  have hone : result = 1 := by
    rw [hframes', List.map_singleton] at hslots
    have hset : top.slots.setIfInBounds (0 : UInt32).toNat result = #[1] := (List.cons.inj hslots).1
    have hfirst : (top.slots.setIfInBounds (0 : UInt32).toNat result)[(0 : UInt32).toNat]? = some 1 := by
      rw [hset]
      rfl
    rw [Array.getElem?_setIfInBounds_self_of_lt hslot] at hfirst
    exact Option.some.inj hfirst
  replace hbit := hbit rfl
  rw [hone] at hresult hbit
  rw [show (exe.splits[(0 : UInt32).toNat]?).getD #[] = #[1, 2] from hprocs] at hresult hbit
  refine ⟨image, exe, _, _, top, himage, hexe, hreaches, hframes, hop, hcompletes, hopen', { a with flag := false },
    ?_, ?_, hresult.symm⟩
  · obtain ⟨proc, hproc, hreturns⟩ := (hbit 0).1 (by decide)
    cases hproc
    exact hreturns
  · intro hreturns
    exact absurd ((hbit 1).2 ⟨2, rfl, hreturns⟩) (by decide)

end

end Machine

end JsonSieve
