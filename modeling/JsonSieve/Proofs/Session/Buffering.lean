import JsonSieve.Proofs.Machine.Loops
import JsonSieve.Proofs.Session.Limits
import JsonSieve.Proofs.Session.Visited
import JsonSieve.Regex.Builtin

/-!
# Tokens in the buffer

A program without splits and unique sets never looks ahead. Between its instructions at most the last token
is in the buffer, but a skip keeps every token that it passes until all containers are closed. So a limit of
two tokens is exceeded only inside of a skip, by a container that is not empty (`buffer_of_direct`), and it is
exceeded there even by a program that accepts every value (`skip_exceeds_buffer`).
-/

namespace JsonSieve

/-- Does the instruction read tokens that are read again? -/
def Opcode.looksAhead : Opcode → Bool
  | .split | .splitBits | .unique => true
  | _ => false

theorem Meter.checkBuffer_tick (meter : Meter) (n : Nat) : meter.tick.1.checkBuffer n = meter.checkBuffer n := by
  cases meter <;> rfl

theorem Meter.checkBuffer_atTime (meter : Meter) (time n : Nat) :
    (meter.atTime time).checkBuffer n = meter.checkBuffer n := by
  cases meter <;> rfl

theorem Meter.checkBuffer_eq_some {meter : Meter} {n limit size : Nat}
    (h : meter.checkBuffer n = some (.buffer limit size)) : size = n ∧ limit < n := by
  cases meter with
  | free => cases h
  | limited limits count elapsed =>
    unfold checkBuffer at h
    dsimp only at h
    split at h
    · split at h
      · next hlt =>
        cases h
        exact ⟨rfl, hlt⟩
      · cases h
    · cases h

/-- Counting an instruction has nothing to do with the buffer. -/
theorem Meter.tick_ne_buffer (meter : Meter) (limit size : Nat) : meter.tick.2 ≠ some (.buffer limit size) := by
  cases meter with
  | free => nofun
  | limited limits count elapsed =>
    intro h
    rcases Option.or_eq_some_iff.1 h with h | ⟨-, h⟩
    · unfold tick.overCount at h
      split at h
      · split at h <;> cases h
      · cases h
    · unfold tick.overTime at h
      split at h
      · split at h <;> cases h
      · cases h

theorem Meter.checkBuffer_mono {meter : Meter} {n k : Nat} (hle : n ≤ k)
    (h : meter.checkBuffer k = none) : meter.checkBuffer n = none := by
  cases meter with
  | free => rfl
  | limited limits count elapsed =>
    unfold checkBuffer at h ⊢
    dsimp only at h ⊢
    split at h
    · next max =>
      split at h
      · cases h
      · exact if_neg (by omega)
    · rfl

namespace Machine

variable {exe : Executable} {meter : Meter} {m m' : Machine} {top : Activation} {below : List Activation}

/-! ## Instructions that do not read -/

structure SameText (m m' : Machine) : Prop where
  splits_eq : m'.splits = m.splits
  meter_eq : m'.meter = m.meter
  buffer_eq : m'.buffer = m.buffer
  cursor_eq : m'.cursor = m.cursor
  skipDepth_eq : m'.skipDepth = m.skipDepth

theorem SameText.refl (m : Machine) : SameText m m := ⟨rfl, rfl, rfl, rfl, rfl⟩

structure Unread (m : Machine) (s : Stepped) : Prop where
  same : s.next = .run → SameText m s.machine
  going : s.next ≠ .suspend
  roomy : ∀ limit size, s.next ≠ .fail (.limit (.buffer limit size))

namespace Unread

theorem run (h : SameText m m') (events : List Event) : Unread m ⟨m', events, .run⟩ :=
  ⟨fun _ => h, nofun, nofun⟩

theorem defect (m m' : Machine) (pc : Nat) (d : Defect) : Unread m (.defect m' pc d) :=
  ⟨nofun, nofun, nofun⟩

theorem after {s : Stepped} (h : Unread m s) (e : Event) : Unread m (s.after e) :=
  ⟨h.same, h.going, h.roomy⟩

theorem enter (h : SameText m m') (exe : Executable) (pc : Nat) (proc : UInt32) : Unread m (m'.enter exe pc proc) := by
  unfold Machine.enter Meter.checkDepth
  split
  · next e hdepth =>
    split at hdepth
    · cases hdepth
      exact ⟨nofun, nofun, nofun⟩
    · cases hdepth
  · split
    · exact .defect m m' pc _
    · exact ⟨fun _ => ⟨h.splits_eq, h.meter_eq, h.buffer_eq, h.cursor_eq, h.skipDepth_eq⟩, nofun, nofun⟩

theorem unwind (exe : Executable) (pc : Nat) (code : Int64) (frames : List Activation) :
    ∀ {m' : Machine}, SameText m m' → m.splits = [] → Unread m (unwind exe pc code m' frames) := by
  induction frames with
  | nil => exact fun _ _ => .defect m _ 0 _
  | cons a rest ih =>
    intro m' h hsplits
    have hrest : SameText m { m' with frames := rest } :=
      ⟨h.splits_eq, h.meter_eq, h.buffer_eq, h.cursor_eq, h.skipDepth_eq⟩
    have hbranch : ¬ (m'.splits.head?.any fun s => s.depth = rest.length) = true := by
      rw [h.splits_eq, hsplits]
      rintro ⟨⟩
    unfold Machine.unwind
    dsimp only
    rw [if_neg hbranch]
    cases rest with
    | nil =>
      refine after ?_ _
      cases verdictOf code with
      | error d => exact .defect m _ pc d
      | ok v => exact ⟨by rintro ⟨⟩, by rintro ⟨⟩, by rintro _ _ ⟨⟩⟩
    | cons b below =>
      dsimp only
      split
      · exact .run hrest _
      · exact (ih hrest hsplits).after _

end Unread

theorem execute_unread (hframes : m.frames = top :: below) (hsplits : m.splits = []) (pc : Nat) {op : Op}
    (hahead : op.code.looksAhead = false) (htoken : op.code ≠ .token) (hconsume : op.code ≠ .consume)
    (huntoken : op.code ≠ .untoken) : Unread m (m.execute exe pc op) := by
  cases hlocal : op.code.isLocal with
  | true =>
    rw [execute_local exe pc hlocal hframes]
    cases effect exe pc op top m.current m.lastCase m.flag with
    | stays top' lastCase flag => exact ⟨fun _ => ⟨rfl, rfl, rfl, rfl, rfl⟩, nofun, nofun⟩
    | fails d => exact .defect m m pc d
  | false =>
    unfold execute
    cases hcode : op.code with
    | call =>
      cases op.a with
      | proc p =>
        have hadvance : SameText m m.advance := by
          rw [advance_eq hframes]
          exact ⟨rfl, rfl, rfl, rfl, rfl⟩
        exact .enter hadvance exe pc p
      | _ => exact .defect m m pc _
    | ret =>
      cases hword : m.word op.a with
      | error d => exact .defect m m pc d
      | ok code => exact .unwind exe pc code m.frames (.refl m) hsplits
    | token => exact absurd hcode htoken
    | consume => exact absurd hcode hconsume
    | untoken => exact absurd hcode huntoken
    | _ => simp_all [Opcode.isLocal, Opcode.looksAhead]

/-! ## The buffer without lookahead -/

/-- No split is in progress. The limit on the buffer is the given one, and the cursor is in the buffer. -/
structure Plain (meter : Meter) (m : Machine) : Prop where
  splits_nil : m.splits = []
  limit_eq : ∀ n, m.meter.checkBuffer n = meter.checkBuffer n
  cursor_le : m.cursor ≤ m.buffer.size

/-- The buffer of a machine that does not look ahead: it holds the last token at most, or what an unfinished
skip has passed. -/
structure Short (exe : Executable) (meter : Meter) (m : Machine) : Prop extends Plain meter m where
  idle : m.skipDepth = 0 → m.buffer.size ≤ 1
  skipping : m.skipDepth ≠ 0 → m.buffer.size = m.cursor ∧ ∃ op, m.upNext exe = some op ∧ op.code = .consume

/-- What holds while a container is skipped. -/
structure Passing (meter : Meter) (m : Machine) : Prop extends Plain meter m where
  size_le : m.buffer.size ≤ max 1 m.cursor

/-- No skip is in progress, and the buffer holds the last token at most. -/
structure Rested (meter : Meter) (m : Machine) : Prop extends Plain meter m where
  idle : m.skipDepth = 0
  size_le : m.buffer.size ≤ 1

def Fetch.Leaves (meter : Meter) (size size' : Nat) : Fetch → Prop
  | .ready => size' = size + 1
  | .needMore | .badText => size' = size
  | .limit e => size' = size + 1 ∧ meter.checkBuffer (size + 1) = some e

theorem fetch_leaves (m : Machine) : m.fetch.2.Leaves m.meter m.buffer.size m.fetch.1.buffer.size := by
  have hkeep : ∀ (t : Token) (input : Lexer), (keep t { m with input }).2.Leaves m.meter m.buffer.size
      (keep t { m with input }).1.buffer.size := by
    intro t input
    rw [keep_eq]
    dsimp only
    rw [Array.size_push]
    cases hcheck : m.meter.checkBuffer (m.buffer.size + 1) with
    | none => rfl
    | some e => exact ⟨rfl, hcheck⟩
  rcases hnext : m.input.next with ⟨input, answer⟩
  rw [fetch_of hnext]
  cases answer with
  | token t => exact hkeep t input
  | eof => exact hkeep .none input
  | needMore => rfl
  | error e => rfl

/-- Asking for the next token reads one token at most. -/
theorem ensure_leaves (hle : m.cursor ≤ m.buffer.size) (hsize : m.buffer.size ≤ m.cursor + 1) :
    (m.ensure m.cursor).2.Leaves m.meter m.cursor (m.ensure m.cursor).1.buffer.size := by
  rcases ensure_cases hle with ⟨hlt, hensure⟩ | ⟨heq, hensure⟩
  · rw [hensure]
    exact Nat.le_antisymm hsize hlt
  · rw [hensure, heq]
    exact fetch_leaves m

/-- What has been read is dropped but for the last token. -/
theorem Passing.compact (h : Passing meter m) (hidle : m.skipDepth = 0) : Rested meter m.compact := by
  obtain ⟨⟨hsplits, hlimit, hle⟩, hsize⟩ := h
  unfold Machine.compact
  split
  · next hcompact =>
    have hextract : (m.buffer.extract (m.cursor - 1) m.buffer.size).size = 1 := by
      rw [Array.size_extract]
      omega
    exact ⟨⟨hsplits, hlimit, hextract.ge⟩, hidle, hextract.le⟩
  · next hcompact =>
    have hcursor : ¬ 1 < m.cursor := fun h => hcompact ⟨by rw [hsplits]; rfl, h⟩
    exact ⟨⟨hsplits, hlimit, hle⟩, hidle, by omega⟩

theorem Plain.grows (h : Plain meter m) (hgrows : Grows m m') : Plain meter m' := by
  obtain ⟨input, tokens, rfl⟩ := hgrows
  refine ⟨h.splits_nil, h.limit_eq, h.cursor_le.trans ?_⟩
  rw [Array.size_append]
  exact Nat.le_add_right ..

structure Skipped (meter : Meter) (r : Machine × Fetch) : Prop extends Plain meter r.1 where
  ready : r.2 = .ready → Rested meter r.1
  waits : r.2 = .needMore → r.1.skipDepth ≠ 0 ∧ r.1.buffer.size = r.1.cursor
  exceeds : ∀ e, r.2 = .limit e → r.1.skipDepth ≠ 0 ∧ r.1.buffer.size = r.1.cursor + 1 ∧
    meter.checkBuffer (r.1.cursor + 1) = some e

theorem Passing.skipAll (h : Passing meter m) (hsound : m.input.Sound) : Skipped meter m.skipAll := by
  refine skipAll_induction (P := Passing meter) ?_ ?_ ?_ hsound h
  · intro m h _ hready
    have hleaves := ensure_leaves h.cursor_le (by have := h.size_le; omega)
    have hgrows := ensure_grows m.cursor m
    have hplain := h.toPlain.grows hgrows
    rw [hready] at hleaves
    have hsize : (m.ensure m.cursor).1.buffer.size = (m.ensure m.cursor).1.cursor + 1 := by
      rw [hgrows.cursor_eq]
      exact hleaves
    exact ⟨⟨hplain.splits_nil, hplain.limit_eq, hsize.ge⟩, hsize.le.trans (Nat.le_max_right ..)⟩
  · intro m h hdepth hstop
    have hleaves := ensure_leaves h.cursor_le (by have := h.size_le; omega)
    have hgrows := ensure_grows m.cursor m
    refine ⟨h.toPlain.grows hgrows, fun hready => absurd hready hstop, fun hneed => ?_, fun e he => ?_⟩
    · rw [hneed] at hleaves
      rw [hgrows.skipDepth_eq, hgrows.cursor_eq]
      exact ⟨hdepth, hleaves⟩
    · rw [he] at hleaves
      rw [hgrows.skipDepth_eq, hgrows.cursor_eq, ← h.limit_eq]
      exact ⟨hdepth, hleaves⟩
  · intro m h hover
    have hrested := h.compact hover
    exact ⟨hrested.toPlain, fun _ => hrested, nofun, nofun⟩

theorem Passing.consume (h : Passing meter m) (hsound : m.input.Sound)
    (hidle : m.skipDepth = 0 → m.buffer.size ≤ 1) : Skipped meter m.consume := by
  rw [consume_eq]
  split
  · next hnothing =>
    exact ⟨h.toPlain, fun _ => ⟨h.toPlain, hnothing.1, hidle hnothing.1⟩, nofun, nofun⟩
  · exact Passing.skipAll ⟨⟨h.splits_nil, h.limit_eq, h.cursor_le⟩, h.size_le⟩ hsound

theorem Short.rested (h : Short exe meter m) (hidle : m.skipDepth = 0) : Rested meter m :=
  ⟨h.toPlain, hidle, h.idle hidle⟩

namespace Rested

theorem short (h : Rested meter m) (exe : Executable) : Short exe meter m :=
  ⟨h.toPlain, fun _ => h.size_le, fun hskip => absurd h.idle hskip⟩

theorem sameText (h : Rested meter m) (hsame : SameText m m') : Rested meter m' where
  splits_nil := hsame.splits_eq.trans h.splits_nil
  limit_eq n := by rw [hsame.meter_eq, h.limit_eq]
  cursor_le := by
    rw [hsame.cursor_eq, hsame.buffer_eq]
    exact h.cursor_le
  idle := hsame.skipDepth_eq.trans h.idle
  size_le := by
    rw [hsame.buffer_eq]
    exact h.size_le

theorem advance (h : Rested meter m) : Rested meter m.advance := by
  refine h.sameText ?_
  unfold Machine.advance mapTop
  split <;> exact ⟨rfl, rfl, rfl, rfl, rfl⟩

theorem readToken (h : Rested meter m) (hlimit : meter.checkBuffer 2 = none) :
    Rested meter m.readToken.1 ∧ ∀ e, m.readToken.2 ≠ .limit e := by
  have hcursor : m.cursor ≤ 1 := h.cursor_le.trans h.size_le
  have hleaves := ensure_leaves h.cursor_le (h.size_le.trans (Nat.le_add_left ..))
  have hgrows := ensure_grows m.cursor m
  rw [readToken_eq]
  cases hfetch : (m.ensure m.cursor).2 with
  | ready =>
    rw [hfetch] at hleaves
    rw [if_pos rfl]
    refine ⟨?_, nofun⟩
    obtain ⟨input, tokens, hgrown⟩ := hgrows
    rw [hgrown] at hleaves ⊢
    exact Passing.compact ⟨⟨h.splits_nil, h.limit_eq, hleaves.ge⟩, hleaves.le.trans (Nat.le_max_right ..)⟩ h.idle
  | needMore | badText =>
    rw [hfetch] at hleaves
    rw [if_neg nofun]
    exact ⟨⟨h.toPlain.grows hgrows, hgrows.skipDepth_eq.trans h.idle, hleaves.le.trans hcursor⟩, by rw [hfetch]; nofun⟩
  | limit e =>
    rw [hfetch] at hleaves
    have hroom := Meter.checkBuffer_mono (show m.cursor + 1 ≤ 2 by omega) hlimit
    rw [← h.limit_eq, hleaves.2] at hroom
    cases hroom

end Rested

/-- What an instruction without lookahead comes to. -/
structure Brief (exe : Executable) (meter : Meter) (op : Op) (s : Stepped) : Prop where
  short : s.next = .run ∨ s.next = .suspend → Short exe meter s.machine
  exceeds : ∀ limit size, s.next = .fail (.limit (.buffer limit size)) →
    op.code = .consume ∧ s.machine.skipDepth ≠ 0 ∧ s.machine.buffer.size = s.machine.cursor + 1 ∧
      meter.checkBuffer (s.machine.cursor + 1) = some (.buffer limit size)

theorem Short.execute (h : Short exe meter m) (hlimit : meter.checkBuffer 2 = none)
    (hsound : m.input.Sound) (hframes : m.frames = top :: below) {op : Op}
    (hop : exe.ops[top.pc]? = some op) (hahead : op.code.looksAhead = false) :
    Brief exe meter op (m.execute exe top.pc op) := by
  have hnext : m.upNext exe = some op := upNext_eq hframes hop
  by_cases hconsume : op.code = .consume
  · have hpassing : Passing meter m :=
      ⟨h.toPlain, by
        by_cases hidle : m.skipDepth = 0
        · exact (h.idle hidle).trans (Nat.le_max_left ..)
        · exact (h.skipping hidle).1.le.trans (Nat.le_max_right ..)⟩
    have hskipped := hpassing.consume hsound h.idle
    have hkept := (consume_kept m).frames_eq
    unfold Machine.execute
    rw [hconsume]
    dsimp only
    rcases hfetch : m.consume with ⟨m', _ | _ | _ | e⟩
    all_goals rw [hfetch] at hskipped hkept
    case ready => exact ⟨fun _ => (hskipped.ready rfl).advance.short exe, by rintro _ _ ⟨⟩⟩
    case needMore =>
      obtain ⟨hskip, hsize⟩ := hskipped.waits rfl
      have hagain : m'.upNext exe = some op := by
        rw [← hnext, upNext, upNext, show m'.frames = m.frames from hkept]
      exact ⟨fun _ => ⟨hskipped.toPlain, fun hidle => absurd hidle hskip,
        fun _ => ⟨hsize, op, hagain, hconsume⟩⟩, by rintro _ _ ⟨⟩⟩
    case badText => exact ⟨(by rintro (h | h) <;> cases h), by rintro _ _ ⟨⟩⟩
    case limit =>
      obtain ⟨hskip, hsize, hcheck⟩ := hskipped.exceeds e rfl
      refine ⟨(by rintro (h | h) <;> cases h), fun limit size hfail => ?_⟩
      cases hfail
      exact ⟨hconsume, hskip, hsize, hcheck⟩
  · have hidle : m.skipDepth = 0 := by
      by_contra hskip
      obtain ⟨-, op', hop', hcode⟩ := h.skipping hskip
      rw [hnext] at hop'
      cases hop'
      exact hconsume hcode
    have hrested := h.rested hidle
    by_cases htoken : op.code = .token
    · obtain ⟨hread, hroom⟩ := hrested.readToken hlimit
      unfold Machine.execute
      rw [htoken]
      dsimp only
      rcases hfetch : m.readToken with ⟨m', _ | _ | _ | e⟩
      all_goals rw [hfetch] at hread hroom
      case ready => exact ⟨fun _ => hread.advance.short exe, by rintro _ _ ⟨⟩⟩
      case needMore => exact ⟨fun _ => hread.short exe, by rintro _ _ ⟨⟩⟩
      case badText => exact ⟨(by rintro (h | h) <;> cases h), by rintro _ _ ⟨⟩⟩
      case limit => exact absurd rfl (hroom e)
    by_cases huntoken : op.code = .untoken
    · unfold Machine.execute
      rw [huntoken]
      dsimp only
      split
      · exact ⟨(by rintro (h | h) <;> cases h), by rintro _ _ ⟨⟩⟩
      · have hback : Rested meter { m with cursor := m.cursor - 1 } :=
          ⟨⟨h.splits_nil, h.limit_eq, (Nat.sub_le ..).trans h.cursor_le⟩, hidle, hrested.size_le⟩
        exact ⟨fun _ => hback.advance.short exe, by rintro _ _ ⟨⟩⟩
    have hunread : Unread m (m.execute exe top.pc op) :=
      execute_unread hframes h.splits_nil top.pc hahead htoken hconsume huntoken
    exact ⟨fun hgoes => (hrested.sameText (hunread.same (hgoes.resolve_right hunread.going))).short exe,
      fun limit size hfail => absurd hfail (hunread.roomy limit size)⟩

/-- A skip exceeds the limit on the buffer: it has passed all tokens in there but the last one, and its
container is still open. -/
structure Exceeds (exe : Executable) (m : Machine) (limit size : Nat) : Prop where
  consumes : ∃ op, m.upNext exe = some op ∧ op.code = .consume
  fails : (m.move exe).next = .fail (.limit (.buffer limit size))
  unclosed : (m.move exe).machine.skipDepth ≠ 0
  size_eq : size = (m.move exe).machine.buffer.size
  passed_eq : size = (m.move exe).machine.cursor + 1
  limit_lt : limit < size
  two_le : 2 ≤ (m.move exe).machine.cursor

theorem Short.step (hdirect : ∀ op ∈ exe.ops, op.code.looksAhead = false) (h : Short exe meter m)
    (hlimit : meter.checkBuffer 2 = none) (hsound : m.input.Sound) (hstarted : m.started = true) :
    ((m.step exe).next = .run ∨ (m.step exe).next = .suspend → Short exe meter (m.step exe).machine) ∧
      ∀ limit size, (m.step exe).next = .fail (.limit (.buffer limit size)) → Exceeds exe m limit size := by
  cases hframes : m.frames with
  | nil =>
    rw [step_nil exe hframes]
    exact ⟨(by rintro (h | h) <;> cases h), by rintro _ _ ⟨⟩⟩
  | cons top below =>
  cases hop : exe.ops[top.pc]? with
  | none =>
    rw [step_pastEnd exe hframes hop]
    exact ⟨(by rintro (h | h) <;> cases h), by rintro _ _ ⟨⟩⟩
  | some op =>
  have hnext : m.upNext exe = some op := upNext_eq hframes hop
  have hmove : m.move exe = m.step exe := move_started hstarted
  have hstep := step_op exe hframes hop
  cases htick : m.meter.tick.2 with
  | some e =>
    rw [htick] at hstep
    rw [hstep]
    refine ⟨(by rintro (h | h) <;> cases h), fun limit size hfail => ?_⟩
    cases hfail
    exact absurd htick (Meter.tick_ne_buffer m.meter limit size)
  | none =>
    rw [htick] at hstep
    have hticked : Short exe meter m.ticked :=
      ⟨⟨h.splits_nil, fun n => (Meter.checkBuffer_tick ..).trans (h.limit_eq n), h.cursor_le⟩, h.idle, h.skipping⟩
    have hbrief := hticked.execute hlimit hsound hframes hop (hdirect op (Array.mem_of_getElem? hop))
    refine ⟨fun hgoes => ?_, fun limit size hfail => ?_⟩
    · rw [hstep] at hgoes ⊢
      exact hbrief.short hgoes
    · rw [hstep] at hmove hfail
      obtain ⟨hconsume, hskip, hsize, hcheck⟩ := hbrief.exceeds limit size hfail
      obtain ⟨hsize', hlt⟩ := Meter.checkBuffer_eq_some hcheck
      refine ⟨⟨op, hnext, hconsume⟩, by rw [hmove]; exact hfail, by rw [hmove]; exact hskip,
        by rw [hmove]; exact hsize'.trans hsize.symm, by rw [hmove]; exact hsize', hsize' ▸ hlt, ?_⟩
      rw [hmove]
      show 2 ≤ (m.ticked.execute exe top.pc op).machine.cursor
      by_contra hlt
      rw [Meter.checkBuffer_mono (by omega) hlimit] at hcheck
      cases hcheck

theorem Reaches.short (hdirect : ∀ op ∈ exe.ops, op.code.looksAhead = false)
    (hlimit : meter.checkBuffer 2 = none) {n : Nat} {text : List UInt8} (h : Reaches exe meter n text m) :
    Short exe meter m := by
  induction h with
  | start => exact ⟨⟨rfl, fun _ => rfl, Nat.le_refl _⟩, fun _ => Nat.zero_le _, fun h => absurd rfl h⟩
  | @begins n text m h hstarted hnext ih =>
    have hidle : m.skipDepth = 0 := by
      by_contra hskip
      obtain ⟨-, op, hop, -⟩ := ih.skipping hskip
      rw [upNext, h.frames_nil hstarted] at hop
      cases hop
    have henter : Unread m (m.move exe) := by
      have hstart : SameText m { m with started := true } := ⟨rfl, rfl, rfl, rfl, rfl⟩
      rw [move, if_neg (by rw [hstarted]; rintro ⟨⟩)]
      exact .enter hstart exe 0 0
    exact ((ih.rested hidle).sameText (henter.same hnext)).short exe
  | steps h hstarted hnext ih => exact (ih.step hdirect hlimit h.sound hstarted).1 (.inl hnext)
  | waits h hstarted hnext ih => exact (ih.step hdirect hlimit h.sound hstarted).1 (.inr hnext)
  | feed _ _ _ ih | close _ ih => exact ⟨⟨ih.splits_nil, ih.limit_eq, ih.cursor_le⟩, ih.idle, ih.skipping⟩
  | clock h time ih =>
    exact ⟨⟨ih.splits_nil, fun n => (Meter.checkBuffer_atTime ..).trans (ih.limit_eq n), ih.cursor_le⟩, ih.idle,
      ih.skipping⟩

end Machine

namespace Session

open Machine (Reaches Exceeds)

variable {σ : Type}

/-- In a session of a program without lookahead the buffer holds one token at most, but for an unfinished
skip, which keeps what it has passed. A limit of two tokens or more is exceeded only by a skip that has
passed at least two tokens and has still to close its container. -/
theorem buffer_of_direct {exe : Executable} (hdirect : ∀ op ∈ exe.ops, op.code.looksAhead = false)
    (observer : Observer σ) {meter : Meter} (hlimit : meter.checkBuffer 2 = none) (seen : σ)
    {turns : List Turn} (hcalm : Calm (replies exe observer turns (start meter seen))) (t : Turn) :
    (∀ m, Visits exe ((start meter seen).after exe observer turns) t m →
      m.buffer.size ≤ 1 ∨ m.skipDepth ≠ 0 ∧ m.buffer.size = m.cursor ∧
        ∃ op, m.upNext exe = some op ∧ op.code = .consume) ∧
    ∀ limit size, (((start meter seen).after exe observer turns).turn exe observer t).2 =
      .failed (.limit (.buffer limit size)) →
      ∃ n m, Reaches exe meter n (fed (turns ++ [t])) m ∧ Exceeds exe m limit size := by
  refine ⟨fun m hvisits => ?_, fun limit size hanswer => ?_⟩
  · obtain ⟨n, hreaches⟩ := Visits.reaches_after hcalm hvisits
    have hshort := hreaches.short hdirect hlimit
    by_cases hidle : m.skipDepth = 0
    · exact .inl (hshort.idle hidle)
    · exact .inr ⟨hidle, hshort.skipping hidle⟩
  · rcases turn_failed_after hcalm hanswer with herror | herror | ⟨n, m, hreaches, hfail⟩
    · cases herror
    · cases herror
    · cases hstarted : m.started with
      | true =>
        rw [Machine.move_started hstarted] at hfail
        exact ⟨n, m, hreaches, ((hreaches.short hdirect hlimit).step hdirect hlimit hreaches.sound
          hstarted).2 limit size hfail⟩
      | false =>
        rw [Machine.move, if_neg (by rw [hstarted]; rintro ⟨⟩)] at hfail
        have henter := Machine.Unread.enter (Machine.SameText.refl { m with started := true }) exe 0 0
        exact absurd hfail (henter.roomy limit size)

/-- The document `[1,2,3]` with a limit of two tokens. -/
theorem buffer_of_direct_skips : (∀ op ∈ acceptAll.ops, op.code.looksAhead = false) ∧
    (Meter.ofLimits { bufferedTokens := some 2 }).checkBuffer 2 = none ∧
    Calm (replies acceptAll Executable.unobserved [] (start (.ofLimits { bufferedTokens := some 2 }) ())) ∧
    ∃ n m, Reaches acceptAll (.ofLimits { bufferedTokens := some 2 }) n
      (fed [⟨.more [0x5b, 0x31, 0x2c, 0x32, 0x2c, 0x33, 0x5d], 9, 0⟩]) m ∧ Exceeds acceptAll m 2 3 := by
  have hdirect : ∀ op ∈ acceptAll.ops, op.code.looksAhead = false := by decide
  have hcalm : Calm (replies acceptAll Executable.unobserved []
      (start (.ofLimits { bufferedTokens := some 2 }) ())) := nofun
  refine ⟨hdirect, rfl, hcalm, ?_⟩
  refine (buffer_of_direct hdirect Executable.unobserved rfl () hcalm
    ⟨.more [0x5b, 0x31, 0x2c, 0x32, 0x2c, 0x33, 0x5d], 9, 0⟩).2 2 3 ?_
  decide +kernel

/-- The program that accepts every value does not look ahead, and the document `[1,2,3]` exceeds its limit
of two tokens. -/
theorem skip_exceeds_buffer : ∃ exe, Constraint.compile .valid = .ok exe ∧
    (∀ op ∈ exe.ops, op.code.looksAhead = false) ∧
    replies exe Executable.unobserved [⟨.more [0x5b, 0x31, 0x2c, 0x32, 0x2c, 0x33, 0x5d], 9, 0⟩]
      (start (.ofLimits { bufferedTokens := some 2 }) ()) = [.failed (.limit (.buffer 2 3))] := by
  have hreplies := Constraint.exists_compile (show Constraint.toTree .valid = _ from rfl) ofTree_acceptTree
    (f := fun exe => (exe.ops.any fun op => op.code.looksAhead,
      replies exe Executable.unobserved [⟨.more [0x5b, 0x31, 0x2c, 0x32, 0x2c, 0x33, 0x5d], 9, 0⟩]
        (start (.ofLimits { bufferedTokens := some 2 }) ())))
    (a := (false, [.failed (.limit (.buffer 2 3))])) (by decide +kernel)
  obtain ⟨exe, hexe, hboth⟩ := hreplies
  obtain ⟨hahead, hreplies⟩ := Prod.mk.inj hboth
  exact ⟨exe, hexe, fun op hop => Bool.eq_false_iff.2 (Array.any_eq_false'.1 hahead op hop), hreplies⟩

end Session

end JsonSieve
