import JsonSieve.Proofs.Machine.Checked
import JsonSieve.Proofs.Machine.Loops
import JsonSieve.Proofs.Session.Visited
import JsonSieve.Regex.Builtin

/-!
# Nothing is accessed that does not exist

The strict machine makes every access without a way out: an instruction, a procedure, a split list, an
operand's entry of a table, a token of the buffer, the current activation and the innermost split have to
exist, a buffer is compacted only up to its end, and no word is shifted by its width or more. Where this
fails it has no step. In the states that a machine comes to with an accepted image (`Bounded`) the strict
machine and the machine have the same steps (`Bounded.move`), so a session never makes such an access and
never fails with a defect that reports one (`accesses_exist`).
-/

namespace JsonSieve

/-- Does the defect report an access to something that does not exist in the machine or its tables? -/
def Defect.isAccess : Defect → Bool
  | .pastEnd | .noActivation | .missingProcedure _ | .missingNumber _ | .noSplit => true
  | _ => false

namespace Machine

/-! ## The strict machine -/

def compact? (m : Machine) : Option Machine :=
  if m.cursor ≤ m.buffer.size then some m.compact else none

def readToken? (m : Machine) : Option (Machine × Fetch) :=
  match m.ensure m.cursor with
  | (m, .ready) => do
    let t ← m.buffer[m.cursor]?
    let m ← compact? { m with current := t, cursor := m.cursor + 1 }
    some (m, .ready)
  | stopped => some stopped

def skip? : Nat → Machine → Option (Machine × Fetch)
  | 0, m => some (m, .needMore)
  | n + 1, m =>
    if m.skipDepth = 0 then m.compact?.map (·, .ready)
    else
      match m.ensure m.cursor with
      | (m, .ready) => do
        let t ← m.buffer[m.cursor]?
        skip? n { m with skipDepth := openAfter t.kind m.skipDepth, cursor := m.cursor + 1 }
      | stopped => some stopped

def consume? (m : Machine) : Option (Machine × Fetch) :=
  if m.skipDepth = 0 then
    if m.current.kind.opens then skip? m.lookahead { m with skipDepth := 1 }
    else some (m, .ready)
  else skip? m.lookahead m

def scanFrom? : Nat → Nat → List Partial → Machine → Option (Machine × Scan)
  | 0, _, _, m => some (m, .needMore)
  | n + 1, place, stack, m =>
    match m.ensure place with
    | (m, .ready) => do
      let t ← m.buffer[place]?
      match Reading.step stack t with
      | .more stack => scanFrom? n (place + 1) stack m
      | .value v => some (m, .value v)
      | .bad => some (m, .badText)
    | (m, .needMore) => some (m, .needMore)
    | (m, .badText) => some (m, .badText)
    | (m, .limit e) => some (m, .limit e)

def enter? (exe : Executable) (proc : UInt32) (m : Machine) : Option Stepped :=
  match m.meter.checkDepth m.depth with
  | some e => some ⟨m, [], .fail (.limit e)⟩
  | none => do
    let p ← exe.procs[proc.toNat]?
    let a : Activation := { proc, pc := p.entry.toNat, slots := Array.replicate p.slots.toNat 0 }
    some ⟨{ m with frames := a :: m.frames }, [.call proc (m.depth + 1)], .run⟩

def returned? (s : Split) (code : Int64) : Option Split :=
  if code = 0 ∧ s.bits = true ∧ 64 ≤ s.branch then none else some (Split.returned s code)

def finishBranch? (exe : Executable) (pc : Nat) (code : Int64) (m : Machine) : Option Stepped := do
  let s ← m.splits.head?
  let s ← returned? s code
  let branches ← exe.splits[s.split.toNat]?
  match branches[s.branch]? with
  | some proc => (m.restore s (s :: m.splits.tail)).enter? exe proc
  | none => do
    let _ ← m.frames.head?
    let m := m.restore s m.splits.tail
    some (.after (.splitEnd s.split s.result)
      (.require m pc (m.slot s.target) fun _ => ⟨m.setSlot s.target s.result, [], .run⟩))

def unwind? (exe : Executable) (pc : Nat) (code : Int64) (m : Machine) :
    List Activation → Option Stepped
  | [] => none
  | _ :: rest =>
    let m := { m with frames := rest }
    let ended := Event.ret code rest.length
    if m.splits.head?.any (·.depth = rest.length) then
      (m.finishBranch? exe pc code).map (.after ended)
    else match rest with
      | [] => some (.after ended (.require m pc (verdictOf code) fun v => .finish m v))
      | _ :: _ =>
        if code = 0 then some ⟨m, [ended], .run⟩
        else (unwind? exe pc code m rest).map (.after ended)

def startSplit? (exe : Executable) (pc : Nat) (bits : Bool) (split target : UInt32) (m : Machine) :
    Option Stepped :=
  match m.slot target with
  | .error d => some (.defect m pc d)
  | .ok _ => do
    let branches ← exe.splits[split.toNat]?
    if bits ∧ 64 < branches.size then some (.defect m pc (.tooManyBranches branches.size))
    else
      let m := m.advance
      match branches[0]? with
      | none =>
        some ⟨m.setSlot target 0, [.splitStart split branches.size, .splitEnd split 0], .run⟩
      | some proc =>
        let s : Split := {
          split, bits, target, depth := m.depth, cursor := m.cursor, token := m.current
          lastCase := m.lastCase }
        (enter? exe proc { m with splits := s :: m.splits }).map
          (.after (.splitStart split branches.size))

/-- Does the instruction shift by less than the width of a word, if it shifts? -/
def shifts (m : Machine) (op : Op) : Bool :=
  match op.code with
  | .bitSet | .bitClear | .bitTest =>
    match m.word op.b >>= bitIndex with
    | .ok bit => decide (bit < 64)
    | .error _ => true
  | _ => true

def execute? (exe : Executable) (pc : Nat) (op : Op) (m : Machine) : Option Stepped :=
  if exe.names op.a && exe.names op.b && m.shifts op then
    match op.code with
    | .call =>
      match op.a with
      | .proc p => m.advance.enter? exe p
      | _ => some (.defect m pc .needsProcedure)
    | .ret =>
      match m.word op.a with
      | .ok code => unwind? exe pc code m m.frames
      | .error d => some (.defect m pc d)
    | .split =>
      match op.a, op.b with
      | .split s, .slot target => m.startSplit? exe pc false s target
      | _, _ => some (.defect m pc .needsListAndSlot)
    | .splitBits =>
      match op.a, op.b with
      | .split s, .slot target => m.startSplit? exe pc true s target
      | _, _ => some (.defect m pc .needsListAndSlot)
    | .token => m.readToken?.map (.fetched pc fun m => ⟨m.advance, [.token m.current.kind], .run⟩)
    | .consume => m.consume?.map (.fetched pc fun m => ⟨m.advance, [], .run⟩)
    | .unique =>
      match op.a with
      | .slot i => (scanFrom? m.lookahead m.cursor [] m).map (mark pc i)
      | _ => some (.defect m pc .needsSetSlot)
    | _ => some (m.execute exe pc op)
  else none

def step? (exe : Executable) (m : Machine) : Option Stepped := do
  let top ← m.frames.head?
  let op ← exe.ops[top.pc]?
  match m.meter.tick.2 with
  | some e => some ⟨m.ticked, [], .fail (.limit e)⟩
  | none => (m.ticked.execute? exe top.pc op).map (.after (.instruction top.pc op.code m.depth))

/-- The next step of the strict machine, if all that it accesses exists. -/
def move? (exe : Executable) (m : Machine) : Option Stepped :=
  if m.started then m.step? exe else enter? exe 0 { m with started := true }

/-! ## The states of a machine -/

/-- The splits in progress, with fewer activations below each than below the one inside of it, and one
below the outermost. -/
def Nested : Nat → List Split → Prop
  | _, [] => True
  | depth, s :: outer => 0 < s.depth ∧ s.depth < depth ∧ Nested s.depth outer

/-- A split in progress can go on: its list exists and has the branch that is running, and its place is in
the buffer. -/
structure Saved (exe : Executable) (size : Nat) (s : Split) : Prop where
  cursor_le : s.cursor ≤ size
  branch_lt : ∃ branches, exe.splits[s.split.toNat]? = some branches ∧ s.branch < branches.size ∧
    (s.bits = true → branches.size ≤ 64)

/-- Places in the code and in the buffer exist. -/
structure Ranged (exe : Executable) (m : Machine) : Prop where
  cursor_le : m.cursor ≤ m.buffer.size
  pc_lt : ∀ a ∈ m.frames, a.pc < exe.ops.size
  saved : ∀ s ∈ m.splits, Saved exe m.buffer.size s

structure Bounded (exe : Executable) (m : Machine) : Prop extends Ranged exe m where
  running : m.started = true → m.frames ≠ []
  nested : Nested m.frames.length m.splits

section

variable {exe : Executable} {m m' : Machine} {top : Activation} {below : List Activation}

theorem Nested.mono {depth depth' : Nat} (hle : depth ≤ depth') {splits : List Split}
    (h : Nested depth splits) : Nested depth' splits := by
  cases splits with
  | nil => trivial
  | cons s outer => exact ⟨h.1, by have := h.2.1; omega, h.2.2⟩

variable {s : Split} {d : Defect} {op : Op}

theorem Saved.mono {size size' : Nat} (hle : size ≤ size') (h : Saved exe size s) : Saved exe size' s :=
  ⟨h.cursor_le.trans hle, h.branch_lt⟩

theorem Bounded.grows (h : Bounded exe m) (hgrows : Grows m m') : Bounded exe m' := by
  obtain ⟨input, tokens, rfl⟩ := hgrows
  have hle : m.buffer.size ≤ (m.buffer ++ tokens).size := by
    rw [Array.size_append]
    omega
  exact ⟨⟨h.cursor_le.trans hle, h.pc_lt, fun s hs => (h.saved s hs).mono hle⟩, h.running, h.nested⟩

/-- A change of the current activation keeps the state, if it stays in the code. -/
theorem Bounded.onTop (h : Bounded exe m) (hframes : m.frames = top :: below) (top' : Activation)
    (hpc : top'.pc < exe.ops.size) (lastCase : Int64) (flag : Bool) :
    Bounded exe { m with frames := top' :: below, lastCase, flag } := by
  refine ⟨⟨h.cursor_le, ?_, h.saved⟩, fun _ => by nofun, ?_⟩
  · intro a ha
    rcases List.mem_cons.1 ha with rfl | ha
    · exact hpc
    · exact h.pc_lt a (hframes ▸ List.mem_cons_of_mem _ ha)
  · have hnested := h.nested
    rw [hframes] at hnested
    exact hnested

theorem Bounded.advance (h : Bounded exe m) (hframes : m.frames = top :: below)
    (hpc : top.pc + 1 < exe.ops.size) : Bounded exe m.advance := by
  rw [advance_eq hframes]
  exact h.onTop hframes _ hpc m.lastCase m.flag

theorem Bounded.compact (h : Bounded exe m) : Bounded exe m.compact := by
  unfold Machine.compact
  split
  · next hcompact =>
    have hsplits : m.splits = [] := List.isEmpty_iff.1 hcompact.1
    refine ⟨⟨?_, h.pc_lt, ?_⟩, h.running, h.nested⟩
    · have hcursor := h.cursor_le
      show 1 ≤ (m.buffer.extract (m.cursor - 1) m.buffer.size).size
      rw [Array.size_extract]
      omega
    · rw [hsplits]
      nofun
  · exact h

/-! ## Reading -/

/-- The strict machine reads as the machine does, and the state stays as it can be. -/
structure Fetched {α : Type} (exe : Executable) (strict : Option (Machine × α)) (r : Machine × α) : Prop
    where
  eq : strict = some r
  bounded : Bounded exe r.1

theorem Bounded.moved (h : Bounded exe m) {place : Nat} (hplace : place < m.buffer.size) (current : Token)
    (skipDepth : Nat) : Bounded exe { m with current, skipDepth, cursor := place + 1 } :=
  ⟨⟨hplace, h.pc_lt, h.saved⟩, h.running, h.nested⟩

theorem tokenAt_eq {place : Nat} (h : place < m.buffer.size) : m.buffer[place]? = some (m.tokenAt place) := by
  rw [tokenAt, Array.getElem?_eq_getElem h]
  rfl

theorem Bounded.readToken (h : Bounded exe m) : Fetched exe m.readToken? m.readToken := by
  unfold readToken? Machine.readToken
  have hgrown := h.grows (ensure_grows m.cursor m)
  have hcursor := (ensure_grows m.cursor m).cursor_eq
  rcases hensure : m.ensure m.cursor with ⟨m', _ | _ | _ | e⟩
  case ready =>
    have hplace := @ensure_size m m.cursor (by rw [hensure])
    rw [hensure] at hplace hgrown hcursor
    rw [← hcursor] at hplace
    have hmoved := hgrown.moved hplace (m'.tokenAt m'.cursor) m'.skipDepth
    refine ⟨?_, hmoved.compact⟩
    dsimp only
    rw [tokenAt_eq hplace, Option.bind_eq_bind, Option.bind_some, compact?, if_pos hmoved.cursor_le]
    rfl
  all_goals
    rw [hensure] at hgrown
    exact ⟨rfl, hgrown⟩

theorem Bounded.skip (n : Nat) (h : Bounded exe m) : Fetched exe (skip? n m) (skip n m) := by
  induction n generalizing m with
  | zero => exact ⟨rfl, h⟩
  | succ n ih =>
    unfold skip? Machine.skip
    split
    · refine ⟨?_, h.compact⟩
      rw [compact?, if_pos h.cursor_le]
      rfl
    · have hgrown := h.grows (ensure_grows m.cursor m)
      have hcursor := (ensure_grows m.cursor m).cursor_eq
      rcases hensure : m.ensure m.cursor with ⟨m', _ | _ | _ | e⟩
      case ready =>
        have hplace := @ensure_size m m.cursor (by rw [hensure])
        rw [hensure] at hplace hgrown hcursor
        rw [← hcursor] at hplace
        dsimp only
        rw [tokenAt_eq hplace, Option.bind_eq_bind, Option.bind_some]
        exact ih (hgrown.moved hplace m'.current _)
      all_goals
        rw [hensure] at hgrown
        exact ⟨rfl, hgrown⟩

theorem Bounded.consume (h : Bounded exe m) : Fetched exe m.consume? m.consume := by
  unfold consume? Machine.consume
  split
  · split
    · exact Bounded.skip _ ⟨⟨h.cursor_le, h.pc_lt, h.saved⟩, h.running, h.nested⟩
    · exact ⟨rfl, h⟩
  · exact h.skip _

theorem Bounded.scanFrom (n place : Nat) (stack : List Partial) (h : Bounded exe m) :
    Fetched exe (scanFrom? n place stack m) (scanFrom n place stack m) := by
  induction n generalizing place stack m with
  | zero => exact ⟨rfl, h⟩
  | succ n ih =>
    unfold scanFrom? Machine.scanFrom
    have hgrown := h.grows (ensure_grows place m)
    rcases hensure : m.ensure place with ⟨m', _ | _ | _ | e⟩
    case ready =>
      have hplace := @ensure_size m place (by rw [hensure])
      rw [hensure] at hplace hgrown
      dsimp only
      rw [tokenAt_eq hplace, Option.bind_eq_bind, Option.bind_some]
      cases Reading.step stack (m'.tokenAt place) with
      | more stack => exact ih (place + 1) stack hgrown
      | value v => exact ⟨rfl, hgrown⟩
      | bad => exact ⟨rfl, hgrown⟩
    all_goals
      rw [hensure] at hgrown
      exact ⟨rfl, hgrown⟩

/-! ## Steps -/

/-- The strict machine makes the same step, which comes to a state as it can be and does not fail because
something does not exist. -/
structure Safe (exe : Executable) (strict : Option Stepped) (s : Stepped) : Prop where
  eq : strict = some s
  bounded : s.next = .run ∨ s.next = .suspend → Bounded exe s.machine
  sound : ∀ pc d, s.next = .fail (.malformed pc d) → d.isAccess = false

namespace Safe

theorem goesOn (events : List Event) (h : Bounded exe m) : Safe exe (some ⟨m, events, .run⟩) ⟨m, events, .run⟩ :=
  ⟨rfl, fun _ => h, nofun⟩

theorem after {strict : Option Stepped} {s : Stepped} (h : Safe exe strict s) (e : Event) :
    Safe exe (strict.map (.after e)) (s.after e) :=
  ⟨by rw [h.eq]; rfl, h.bounded, h.sound⟩

theorem limit (m : Machine) (e : LimitError) : Safe exe (some ⟨m, [], .fail (.limit e)⟩) ⟨m, [], .fail (.limit e)⟩ :=
  ⟨rfl, nofun, nofun⟩

theorem defect (m : Machine) (pc : Nat) (hd : d.isAccess = false) :
    Safe exe (some (.defect m pc d)) (.defect m pc d) := by
  refine ⟨rfl, nofun, fun pc' d' h => ?_⟩
  cases h
  exact hd

theorem fetched {strict : Option (Machine × Fetch)} {r : Machine × Fetch} (h : Fetched exe strict r)
    (pc : Nat) {ready : Machine → Stepped}
    (hready : Bounded exe r.1 → Safe exe (some (ready r.1)) (ready r.1)) :
    Safe exe (strict.map (.fetched pc ready)) (.fetched pc ready r) := by
  obtain ⟨rfl, hbounded⟩ := h
  rcases r with ⟨m, _ | _ | _ | e⟩
  case ready => exact hready hbounded
  case needMore => exact ⟨rfl, fun _ => hbounded, nofun⟩
  case badText => exact ⟨rfl, nofun, nofun⟩
  case limit => exact ⟨rfl, nofun, nofun⟩

end Safe

theorem slot_sound (hframes : m.frames ≠ []) {i : UInt32} (h : m.slot i = .error d) : d.isAccess = false := by
  rw [slot] at h
  split at h
  · next hnil => exact absurd hnil hframes
  · split at h
    · cases h
    · cases h
      rfl

theorem word_sound (hframes : m.frames ≠ []) {o : Operand} (h : m.word o = .error d) : d.isAccess = false := by
  cases o with
  | int | register => cases h
  | slot i => exact slot_sound hframes h
  | _ =>
    cases h
    rfl

theorem Ranged.enter (hexe : exe.Checked) (h : Ranged exe m)
    (hnested : Nested (m.frames.length + 1) m.splits) {proc : UInt32}
    (hproc : proc.toNat < exe.procs.size) (pc : Nat) :
    Safe exe (m.enter? exe proc) (m.enter exe pc proc) := by
  unfold enter? Machine.enter
  cases m.meter.checkDepth m.depth with
  | some e => exact .limit m e
  | none =>
    have hp := Array.getElem?_eq_getElem hproc
    rw [hp]
    refine .goesOn _ ⟨⟨h.cursor_le, ?_, h.saved⟩, fun _ => by nofun, hnested⟩
    intro a ha
    rcases List.mem_cons.1 ha with rfl | ha
    · exact hexe.entry_lt hp
    · exact h.pc_lt a ha

theorem Bounded.setSlot (h : Bounded exe m) (hframes : m.frames = top :: below) (i : UInt32) (w : Int64) :
    Bounded exe (m.setSlot i w) := by
  have hpc : top.pc < exe.ops.size := h.pc_lt top (hframes ▸ List.mem_cons_self ..)
  rw [setSlot_eq hframes]
  exact h.onTop hframes { top with slots := top.slots.setIfInBounds i.toNat w } hpc m.lastCase m.flag

theorem returned?_eq (code : Int64) (h : s.bits = true → s.branch < 64) :
    returned? s code = some (Split.returned s code) := by
  rw [returned?, if_neg]
  rintro ⟨-, hbits, hbranch⟩
  have := h hbits
  omega

theorem Ranged.finishBranch (hexe : exe.Checked) (h : Ranged exe m) {outer : List Split}
    (hsplits : m.splits = s :: outer) (hdepth : s.depth = m.frames.length)
    (hnested : Nested (m.frames.length + 1) m.splits) (pc : Nat) (code : Int64) :
    Safe exe (m.finishBranch? exe pc code) (m.finishBranch exe pc code) := by
  have hsaved := h.saved s (hsplits ▸ List.mem_cons_self ..)
  obtain ⟨branches, hbranches, hbranch, hbits⟩ := hsaved.branch_lt
  have houter : ∀ s' ∈ outer, Saved exe m.buffer.size s' :=
    fun s' hs' => h.saved s' (hsplits ▸ List.mem_cons_of_mem _ hs')
  rw [hsplits] at hnested
  obtain ⟨top, below, hframes⟩ : ∃ top below, m.frames = top :: below := by
    cases hframes : m.frames with
    | nil =>
      have hpos := hnested.1
      rw [hdepth, hframes] at hpos
      cases hpos
    | cons top below => exact ⟨top, below, rfl⟩
  have hshift := returned?_eq code fun hb => hbranch.trans_le (hbits hb)
  rw [finishBranch_cons exe pc hsplits, finishBranch?, hsplits]
  simp only [List.head?_cons, Option.bind_eq_bind, Option.bind_some, hshift,
    show (Split.returned s code).split = s.split from rfl, hbranches, List.tail_cons]
  cases hproc : branches[(Split.returned s code).branch]? with
  | some proc =>
    have hmem := Array.mem_of_getElem? hproc
    have hlt : (Split.returned s code).branch < branches.size := (Array.getElem?_eq_some_iff.1 hproc).1
    refine @Ranged.enter exe (m.restore (Split.returned s code) (Split.returned s code :: outer)) hexe
      ⟨hsaved.cursor_le, h.pc_lt, ?_⟩ hnested proc (hexe.branches hbranches _ hmem) pc
    intro s' hs'
    rcases List.mem_cons.1 hs' with rfl | hs'
    · exact ⟨hsaved.cursor_le, branches, hbranches, hlt, hbits⟩
    · exact houter s' hs'
  | none =>
    rw [hframes]
    dsimp only [List.head?_cons, Option.bind_some]
    refine @Safe.after exe (some _) _ ?_ _
    have hbounded : Bounded exe (m.restore (Split.returned s code) outer) :=
      ⟨⟨hsaved.cursor_le, h.pc_lt, houter⟩, fun _ => by
        show m.frames ≠ []
        rw [hframes]
        rintro ⟨⟩, hdepth ▸ hnested.2.2⟩
    cases hslot : (m.restore (Split.returned s code) outer).slot (Split.returned s code).target with
    | error d =>
      refine Safe.defect _ pc (slot_sound ?_ hslot)
      show m.frames ≠ []
      rw [hframes]
      rintro ⟨⟩
    | ok w =>
      exact .goesOn [] (hbounded.setSlot hframes _ _)

theorem unwind_safe (hexe : exe.Checked) (pc : Nat) (code : Int64) (frames : List Activation) :
    ∀ {m : Machine}, frames ≠ [] → Ranged exe { m with frames } → Nested frames.length m.splits →
      Safe exe (unwind? exe pc code m frames) (unwind exe pc code m frames) := by
  induction frames with
  | nil => exact fun h => absurd rfl h
  | cons a rest ih =>
    intro m _ h hnested
    have hrest : Ranged exe { m with frames := rest } :=
      ⟨h.cursor_le, fun b hb => h.pc_lt b (.tail _ hb), h.saved⟩
    unfold unwind? unwind
    dsimp only
    split
    · next hbranch =>
      obtain ⟨s, outer, hsplits⟩ : ∃ s outer, m.splits = s :: outer := by
        cases hsplits : m.splits with
        | nil =>
          rw [hsplits] at hbranch
          cases hbranch
        | cons s outer => exact ⟨s, outer, rfl⟩
      have hdepth : s.depth = rest.length := by simpa [hsplits] using hbranch
      exact (Ranged.finishBranch hexe hrest hsplits hdepth hnested pc code).after _
    · next hbranch =>
      have hinner : Nested rest.length m.splits := by
        cases hsplits : m.splits with
        | nil => trivial
        | cons s outer =>
          have hne : s.depth ≠ rest.length := by simpa [hsplits] using hbranch
          rw [hsplits] at hnested
          obtain ⟨hpos, hlt, houter⟩ := hnested
          rw [List.length_cons] at hlt
          exact ⟨hpos, by omega, houter⟩
      cases rest with
      | nil =>
        refine @Safe.after exe (some _) _ ?_ _
        rcases hverdict : verdictOf code with d | v
        · refine .defect _ pc ?_
          unfold verdictOf at hverdict
          split at hverdict
          · cases hverdict
          · split at hverdict
            · cases hverdict
            · cases hverdict
              rfl
        · exact ⟨rfl, (by rintro (h | h) <;> cases h), by rintro _ _ ⟨⟩⟩
      | cons b below =>
        dsimp only
        split
        · exact .goesOn _ ⟨hrest, fun _ => by rintro ⟨⟩, hinner⟩
        · exact (ih (by rintro ⟨⟩) hrest hinner).after _

theorem Bounded.startSplit (hexe : exe.Checked) (h : Bounded exe m) (hframes : m.frames = top :: below)
    (hpc : top.pc + 1 < exe.ops.size) {split : UInt32} (hsplit : split.toNat < exe.splits.size)
    (pc : Nat) (bits : Bool) (target : UInt32) :
    Safe exe (m.startSplit? exe pc bits split target) (m.startSplit exe pc bits split target) := by
  unfold startSplit? Machine.startSplit
  cases hslot : m.slot target with
  | error d => exact .defect m pc (slot_sound (by rw [hframes]; nofun) hslot)
  | ok w =>
    have hlist := Array.getElem?_eq_getElem hsplit
    have hadvance := h.advance hframes hpc
    have hframes' : m.advance.frames = { top with pc := top.pc + 1 } :: below := by
      rw [advance_eq hframes]
    simp only [Stepped.require, hlist, Option.bind_eq_bind, Option.bind_some, Option.getD_some]
    split
    · exact .defect m pc rfl
    · next hbits =>
      cases hproc : exe.splits[split.toNat][0]? with
      | none => exact .goesOn _ (hadvance.setSlot hframes' _ _)
      | some proc =>
        refine Safe.after ?_ _
        have hmem := Array.mem_of_getElem? hproc
        refine Ranged.enter hexe ?_ ?_ (hexe.branches hlist _ hmem) pc
        · refine ⟨hadvance.cursor_le, hadvance.pc_lt, fun s hs => ?_⟩
          rcases List.mem_cons.1 hs with rfl | hs
          · refine ⟨hadvance.cursor_le, _, hlist, (Array.getElem?_eq_some_iff.1 hproc).1, fun hb => ?_⟩
            exact not_lt.1 fun hlt => hbits ⟨hb, hlt⟩
          · exact hadvance.saved s hs
        · refine ⟨?_, Nat.lt_succ_self _, hadvance.nested⟩
          show 0 < m.advance.frames.length
          rw [hframes']
          exact Nat.succ_pos _

/-- A defect of an instruction that stays in its activation does not report an access. -/
theorem defective_sound (ha : exe.names op.a = true) (hb : exe.names op.b = true)
    (h : Effect.Defective exe op d) : d.isAccess = false := by
  cases h with
  | number i hop hnone =>
    have hlt : i.toNat < exe.floats.size := by
      rcases hop with hop | hop
      · rw [hop] at ha
        exact of_decide_eq_true ha
      · rw [hop] at hb
        exact of_decide_eq_true hb
    rw [Array.getElem?_eq_getElem hlt] at hnone
    cases hnone
  | _ => rfl

theorem shifts_eq (m : Machine) (op : Op) : m.shifts op = true := by
  unfold shifts
  split
  case h_4 => rfl
  all_goals
    split
    · next bit hbit =>
      obtain ⟨w, -, hw⟩ := except_bind_eq_ok.1 hbit
      unfold bitIndex at hw
      split at hw
      · next hrange =>
        cases hw
        rw [decide_eq_true_iff]
        have h64 := Int64.lt_iff_toInt_lt.1 hrange.2
        rw [Int64.toNatClampNeg]
        have : (64 : Int64).toInt = 64 := by decide
        omega
      · cases hw
    · rfl

theorem Bounded.stays (hexe : exe.Checked) (h : Bounded exe m) (hframes : m.frames = top :: below)
    (hop : exe.ops[top.pc]? = some op) (hlocal : op.code.isLocal = true) :
    Safe exe (some (m.execute exe top.pc op)) (m.execute exe top.pc op) := by
  obtain ⟨ha, hb⟩ := hexe.operands hop
  have hlawful := effect_lawful exe top.pc hlocal top m.current m.lastCase m.flag
  rw [execute_local exe top.pc hlocal hframes]
  cases heffect : effect exe top.pc op top m.current m.lastCase m.flag with
  | fails d =>
    rw [heffect] at hlawful
    exact .defect m top.pc (defective_sound ha hb hlawful)
  | stays top' lastCase flag =>
    rw [heffect] at hlawful
    refine .goesOn [] (h.onTop hframes top' ?_ lastCase flag)
    rcases hlawful.pc_eq with ⟨hcode, hpc⟩ | ⟨a, haddress, hpc⟩
    · rw [hpc]
      exact hexe.next_lt hop hcode
    · rw [haddress] at ha
      rw [hpc]
      exact of_decide_eq_true ha

/-- The coming value is looked at and marked as seen. -/
theorem Safe.mark {strict : Option (Machine × Scan)} {r : Machine × Scan} (h : Fetched exe strict r)
    (hframes : r.1.frames = top :: below) (hpc : top.pc + 1 < exe.ops.size) (slot : UInt32) :
    Safe exe (strict.map (mark top.pc slot)) (mark top.pc slot r) := by
  obtain ⟨rfl, hbounded⟩ := h
  rcases r with ⟨m, v | _ | _ | e⟩
  case needMore => exact ⟨rfl, fun _ => hbounded, nofun⟩
  case badText => exact ⟨rfl, nofun, nofun⟩
  case limit => exact ⟨rfl, nofun, nofun⟩
  case value =>
    cases hslot : m.slot slot with
    | error d =>
      rw [Option.map_some, mark_error top.pc hslot]
      exact .defect m top.pc (slot_sound (List.ne_nil_of_mem (hframes ▸ List.mem_cons_self ..)) hslot)
    | ok w =>
      rw [Option.map_some, mark_ok hframes top.pc hslot]
      refine .goesOn [] (hbounded.onTop hframes _ ?_ m.lastCase _)
      show (Activation.insertSeen slot v top).1.pc + 1 < _
      rw [insertSeen_pc]
      exact hpc

theorem Bounded.execute (hexe : exe.Checked) (h : Bounded exe m) (hframes : m.frames = top :: below)
    (hop : exe.ops[top.pc]? = some op) :
    Safe exe (m.execute? exe top.pc op) (m.execute exe top.pc op) := by
  obtain ⟨ha, hb⟩ := hexe.operands hop
  have hguard : (exe.names op.a && exe.names op.b && m.shifts op) = true := by
    rw [ha, hb, shifts_eq]
    rfl
  have hon : ∀ m' : Machine, m'.frames = m.frames → Bounded exe m' → op.code ≠ .finish →
      ∀ events, Safe exe (some ⟨m'.advance, events, .run⟩) ⟨m'.advance, events, .run⟩ :=
    fun m' hframes' h' hcode events =>
      .goesOn events (h'.advance (hframes'.trans hframes) (hexe.next_lt hop hcode))
  rw [execute?, if_pos hguard]
  cases hlocal : op.code.isLocal with
  | true =>
    have hstays := h.stays hexe hframes hop hlocal
    split
    case h_8 => exact hstays
    all_goals
      next hcode =>
      rw [hcode] at hlocal
      cases hlocal
  | false =>
    cases hcode : op.code with
    | call =>
      unfold Machine.execute
      rw [hcode]
      have hnext := hexe.next_lt hop (by rw [hcode]; nofun)
      cases hproc : op.a with
      | proc p =>
        rw [hproc] at ha
        have hadvance := h.advance hframes hnext
        exact Ranged.enter hexe hadvance.toRanged (hadvance.nested.mono (Nat.le_succ _)) (of_decide_eq_true ha) top.pc
      | _ => exact .defect m top.pc rfl
    | ret =>
      unfold Machine.execute
      rw [hcode]
      cases hword : m.word op.a with
      | error d => exact .defect m top.pc (word_sound (by rw [hframes]; nofun) hword)
      | ok code => exact unwind_safe hexe top.pc code m.frames (by rw [hframes]; nofun) h.toRanged h.nested
    | split | splitBits =>
      unfold Machine.execute
      rw [hcode]
      have hnext := hexe.next_lt hop (by rw [hcode]; nofun)
      cases hsplit : op.a with
      | split s =>
        rw [hsplit] at ha
        cases op.b with
        | slot target => exact h.startSplit hexe hframes hnext (of_decide_eq_true ha) top.pc _ target
        | _ => exact .defect m top.pc rfl
      | _ => exact .defect m top.pc rfl
    | token =>
      unfold Machine.execute
      rw [hcode]
      exact .fetched h.readToken top.pc fun h' => hon _ (readToken_kept m).frames_eq h' (by rw [hcode]; nofun) _
    | consume =>
      unfold Machine.execute
      rw [hcode]
      exact .fetched h.consume top.pc fun h' => hon _ (consume_kept m).frames_eq h' (by rw [hcode]; nofun) _
    | unique =>
      unfold Machine.execute
      rw [hcode]
      cases op.a with
      | slot i =>
        have hscan := (scanFrom_grows m.lookahead m.cursor [] m).kept.frames_eq
        exact .mark (h.scanFrom m.lookahead m.cursor []) (hscan.trans hframes)
          (hexe.next_lt hop (by rw [hcode]; nofun)) i
      | _ => exact .defect m top.pc rfl
    | untoken =>
      unfold Machine.execute
      rw [hcode]
      dsimp only
      split
      · exact .defect m top.pc rfl
      · have hcursor := (Nat.sub_le m.cursor 1).trans h.cursor_le
        exact hon { m with cursor := m.cursor - 1 } rfl
          ⟨⟨hcursor, h.pc_lt, h.saved⟩, h.running, h.nested⟩ (by rw [hcode]; nofun) []
    | _ =>
      rw [hcode] at hlocal
      cases hlocal

theorem Bounded.ticked (h : Bounded exe m) : Bounded exe m.ticked :=
  ⟨⟨h.cursor_le, h.pc_lt, h.saved⟩, h.running, h.nested⟩

theorem Bounded.step (hexe : exe.Checked) (h : Bounded exe m) (hstarted : m.started = true) :
    Safe exe (m.step? exe) (m.step exe) := by
  cases hframes : m.frames with
  | nil => exact absurd hframes (h.running hstarted)
  | cons top below =>
    have hpc : top.pc < exe.ops.size := h.pc_lt top (hframes ▸ List.mem_cons_self ..)
    have hop := Array.getElem?_eq_getElem hpc
    rw [step_op exe hframes hop, step?, hframes]
    simp only [List.head?_cons, Option.bind_eq_bind, Option.bind_some, hop]
    cases m.meter.tick.2 with
    | some e => exact .limit m.ticked e
    | none => exact (h.ticked.execute hexe hframes hop).after _

theorem Bounded.move (hexe : exe.Checked) (h : Bounded exe m) : Safe exe (m.move? exe) (m.move exe) := by
  unfold move? Machine.move
  split
  · next hstarted => exact h.step hexe hstarted
  · have hstart : Ranged exe { m with started := true } := ⟨h.cursor_le, h.pc_lt, h.saved⟩
    exact hstart.enter hexe (h.nested.mono (Nat.le_succ _)) (show (0 : UInt32).toNat < _ from hexe.procs_pos) 0

theorem Reaches.bounded (hexe : exe.Checked) {meter : Meter} {n : Nat} {text : List UInt8}
    (h : Reaches exe meter n text m) : Bounded exe m := by
  induction h with
  | start => exact ⟨⟨Nat.le_refl _, nofun, nofun⟩, nofun, trivial⟩
  | begins h hstarted hnext ih => exact (ih.move hexe).bounded (.inl hnext)
  | steps h hstarted hnext ih => exact (ih.step hexe hstarted).bounded (.inl hnext)
  | waits h hstarted hnext ih => exact (ih.step hexe hstarted).bounded (.inr hnext)
  | feed h hopen bytes ih => exact ⟨⟨ih.cursor_le, ih.pc_lt, ih.saved⟩, ih.running, ih.nested⟩
  | close h ih => exact ⟨⟨ih.cursor_le, ih.pc_lt, ih.saved⟩, ih.running, ih.nested⟩
  | clock h time ih => exact ⟨⟨ih.cursor_le, ih.pc_lt, ih.saved⟩, ih.running, ih.nested⟩

end

end Machine

namespace Session

open Machine (Reaches)

variable {σ : Type}

/-- The calls of a session, up to the first that fails, access only what exists, for every image that has
been accepted and every text; and none of them fails with a defect that reports an access to something that
does not exist. -/
theorem accesses_exist [Regex.Engine] {image : Image} {exe : Executable} (hexe : Executable.ofImage image = .ok exe)
    (observer : Observer σ) (meter : Meter) (seen : σ) {turns : List Turn}
    (hcalm : Calm (replies exe observer turns (start meter seen))) (t : Turn) :
    (∀ m, Visits exe ((start meter seen).after exe observer turns) t m → m.move? exe = some (m.move exe)) ∧
    ∀ pc d, (((start meter seen).after exe observer turns).turn exe observer t).2 =
      .failed (.malformed pc d) → d.isAccess = false := by
  have hchecked := Executable.checked_of_ofImage hexe
  refine ⟨fun m hvisits => ?_, fun pc d hanswer => ?_⟩
  · obtain ⟨n, hreaches⟩ := Visits.reaches_after hcalm hvisits
    exact ((hreaches.bounded hchecked).move hchecked).eq
  · rcases turn_failed_after hcalm hanswer with herror | herror | ⟨n, m, hreaches, hfail⟩
    · cases herror
    · cases herror
      rfl
    · exact ((hreaches.bounded hchecked).move hchecked).sound pc d hfail

/-- A procedure whose split runs another one twice, which goes on in the code of the first. -/
def crossingOps : List Op := [ ⟨.splitBits, .split 0, .slot 0⟩, ⟨.token, .none, .none⟩, ⟨.ret, .int 0, .none⟩,
  ⟨.unique, .slot 0, .none⟩, ⟨.branch, .address 1, .none⟩, ⟨.finish, .none, .none⟩]

def crossing : Image where
  procs := [{ slots := 1, entry := 0 }, { slots := 1, entry := 3 }]
  splits := [[1, 1]]
  code := (crossingOps.map Op.encode).flatten

theorem accesses_exist_crossing : Executable.ofImage crossing = .ok (Image.executableOf crossing crossingOps []) ∧
    Calm (replies (Image.executableOf crossing crossingOps []) Executable.unobserved
      [⟨.more [0x5b, 0x31], 20, 0⟩] (start .free ())) ∧
    ∀ m, Visits (Image.executableOf crossing crossingOps [])
      ((start .free ()).after (Image.executableOf crossing crossingOps []) Executable.unobserved
        [⟨.more [0x5b, 0x31], 20, 0⟩]) ⟨.more [0x5d], 20, 0⟩ m →
      m.move? (Image.executableOf crossing crossingOps []) =
        some (m.move (Image.executableOf crossing crossingOps [])) := by
  have hexe : Executable.ofImage crossing = .ok (Image.executableOf crossing crossingOps []) :=
    (Image.ofImage_eq_ok rfl).2 ⟨by decide +kernel, [], .nil, rfl⟩
  have hreplies : replies (Image.executableOf crossing crossingOps []) Executable.unobserved
      [⟨.more [0x5b, 0x31], 20, 0⟩] (start .free ()) = [.status .needMore] := by
    decide +kernel
  have hcalm : Calm (replies (Image.executableOf crossing crossingOps []) Executable.unobserved
      [⟨.more [0x5b, 0x31], 20, 0⟩] (start .free ())) := by
    rw [hreplies]
    intro e he
    simp at he
  exact ⟨hexe, hcalm, (accesses_exist hexe Executable.unobserved .free () hcalm _).1⟩

end Session

end JsonSieve
