import JsonSieve.Proofs.Lexer.Acceptance
import JsonSieve.Proofs.Machine.Absolute
import JsonSieve.Proofs.Session.Visited

/-!
# Places in the buffer are positions in the stream

A machine that has a part of its text shows the state of the absolute machine with the stream of the whole
text (`Shows`): a place in the buffer is a position in the stream behind the beginning of the buffer, and
dropping tokens moves this beginning. Every step of the machine is a step of the absolute machine with the
same outcome, or waits for more of the text, or fails because of a limit or of a token that cannot be pushed
back any more (`Shows.step`). So no token is lost, repeated or taken out of order by the buffer
(`Session.absolute_of_visits`).
-/

namespace JsonSieve

namespace Machine

variable {stream : Stream} {rest : List UInt8} {base : Nat} {m m' : Machine}

/-! ## The buffer in the stream -/

/-- The buffer begins at a position of the stream, and the lexer goes on behind the buffer. -/
structure Carries (stream : Stream) (rest : List UInt8) (base : Nat) (m : Machine) : Prop where
  buffered : ∀ {i : Nat} {t : Token}, m.buffer[i]? = some t → stream.tokenAt (base + i) = some t
  coming : ∃ whole : Lexer, Lexer.Awaits rest true m.input whole ∧
    whole.drain.1 = stream.tokens.drop (base + m.buffer.size) ∧ Concludes stream.broken whole.drain.2

namespace Carries

theorem sound (h : Carries stream rest base m) : m.input.Sound := by
  obtain ⟨whole, hawaits, -⟩ := h.coming
  exact hawaits.sound_left

theorem congr (h : Carries stream rest base m) (hinput : m'.input = m.input)
    (hbuffer : m'.buffer = m.buffer) : Carries stream rest base m' := by
  obtain ⟨hbuffered, hcoming⟩ := h
  rw [← hbuffer] at hbuffered hcoming
  rw [← hinput] at hcoming
  exact ⟨hbuffered, hcoming⟩

theorem tokenAt_eq (h : Carries stream rest base m) {place : Nat} (hplace : place < m.buffer.size) :
    stream.tokenAt (base + place) = some (m.tokenAt place) := by
  refine h.buffered ?_
  rw [tokenAt, Array.getElem?_eq_getElem hplace]
  rfl

theorem push (h : Carries stream rest base m) {t : Token}
    (ht : stream.tokenAt (base + m.buffer.size) = some t) {input whole : Lexer}
    (hawaits : Lexer.Awaits rest true input whole)
    (hdrain : whole.drain.1 = stream.tokens.drop (base + m.buffer.size + 1))
    (hends : Concludes stream.broken whole.drain.2) :
    Carries stream rest base (keep t { m with input }).1 := by
  rw [keep_eq]
  refine ⟨fun {i t'} hi => ?_, whole, hawaits, ?_, hends⟩
  · dsimp only at hi
    rw [Array.getElem?_push] at hi
    split at hi
    · next heq =>
      cases hi
      rw [heq]
      exact ht
    · exact h.buffered hi
  · dsimp only
    rw [Array.size_push, hdrain, Nat.add_assoc]

end Carries

/-- What asking for a token has to do with the stream. -/
def Fetch.Fits (stream : Stream) (rest : List UInt8) (base place : Nat) (m : Machine) : Fetch → Prop
  | .ready => Carries stream rest base m ∧ place < m.buffer.size
  | .needMore => Carries stream rest base m
  | .badText => stream.tokenAt (base + place) = none
  | .limit _ => True

theorem fetch_fits (h : Carries stream rest base m) : m.fetch.2.Fits stream rest base m.buffer.size m.fetch.1 := by
  obtain ⟨whole, hawaits, hdrain, hends⟩ := h.coming
  have hnext := hawaits.next
  have hsound := hawaits.sound_right
  have hkeep : ∀ {t : Token} {input : Lexer}, Carries stream rest base (keep t { m with input }).1 →
      (keep t { m with input }).2.Fits stream rest base m.buffer.size (keep t { m with input }).1 := by
    intro t input hcarries
    rw [keep_eq] at hcarries ⊢
    dsimp only at hcarries ⊢
    cases m.meter.checkBuffer (m.buffer.push t).size with
    | some e => trivial
    | none => exact ⟨hcarries, by rw [Array.size_push]; exact Nat.lt_succ_self _⟩
  rcases hanswer : m.input.next with ⟨input, answer⟩
  rw [hanswer] at hnext
  rw [fetch_of hanswer]
  cases answer with
  | token t =>
    rw [if_neg (by rintro ⟨⟩)] at hnext
    have hdrained := Lexer.drain_token hsound hnext.1
    rw [hdrained] at hdrain hends
    obtain ⟨ht, hrest⟩ := Stream.tokenAt_of_drop hdrain.symm
    exact hkeep (h.push ht hnext.2 hrest.symm hends)
  | eof =>
    rw [if_neg (by rintro ⟨⟩)] at hnext
    have hdrained : whole.drain = ([], .eof) := by rw [Lexer.drain_eq hsound, hnext.1]
    have hagain := Lexer.drain_next hsound (by rw [hnext.1]; nofun) (by rw [hnext.1]; nofun)
    have hends' : Concludes stream.broken whole.next.1.drain.2 := hagain ▸ hends
    rw [hdrained] at hdrain hends hagain
    have hbroken : stream.broken = false := by
      cases hb : stream.broken with
      | false => rfl
      | true =>
        rw [hb] at hends
        obtain ⟨e, he⟩ := hends
        cases he
    have hnone := Stream.tokenAt_of_drop_nil hdrain.symm
    rw [hbroken] at hnone
    refine hkeep (h.push hnone hnext.2 ?_ hends')
    rw [hagain, ← List.drop_drop, ← hdrain]
    rfl
  | needMore =>
    rw [if_pos rfl] at hnext
    exact ⟨h.buffered, whole, hnext, hdrain, hends⟩
  | error e =>
    rw [if_neg (by rintro ⟨⟩)] at hnext
    have hdrained : whole.drain = ([], .error e) := by rw [Lexer.drain_eq hsound, hnext.1]
    rw [hdrained] at hdrain hends
    show stream.tokenAt _ = none
    rw [Stream.tokenAt_of_drop_nil hdrain.symm]
    cases hb : stream.broken with
    | true => rfl
    | false =>
      rw [hb] at hends
      cases hends

theorem ensure_fits (h : Carries stream rest base m) {place : Nat} (hplace : place ≤ m.buffer.size) :
    (m.ensure place).2.Fits stream rest base place (m.ensure place).1 := by
  rcases ensure_cases hplace with ⟨hlt, hensure⟩ | ⟨heq, hensure⟩
  · rw [hensure]
    exact ⟨h, hlt⟩
  · rw [hensure, heq]
    exact fetch_fits h

/-! ## What a machine shows -/

/-- A split in progress with its place in the buffer as a position. -/
def Split.shift (base : Nat) (s : Split) : Split := { s with cursor := base + s.cursor }

/-- The state of a machine is that of an absolute machine, but for the position. -/
structure Mirrors (stream : Stream) (rest : List UInt8) (base : Nat) (m : Machine) (a : Absolute) : Prop
    where
  carries : Carries stream rest base m
  cursor_le : m.cursor ≤ m.buffer.size
  saved_le : ∀ s ∈ m.splits, s.cursor ≤ m.buffer.size
  frames_eq : a.frames = m.frames
  splits_eq : a.splits = m.splits.map (Split.shift base)
  current_eq : a.current = m.current
  lastCase_eq : a.lastCase = m.lastCase
  flag_eq : a.flag = m.flag

structure Rests (stream : Stream) (rest : List UInt8) (base : Nat) (m : Machine) (a : Absolute) : Prop
    extends Mirrors stream rest base m a where
  idle : m.skipDepth = 0
  position_eq : a.position = base + m.cursor

variable {a : Absolute} {top : Activation} {below : List Activation}

namespace Mirrors

theorem grows (h : Mirrors stream rest base m a) (hgrows : Grows m m')
    (hcarries : Carries stream rest base m') : Mirrors stream rest base m' a := by
  obtain ⟨input, tokens, rfl⟩ := hgrows
  have hle : m.buffer.size ≤ (m.buffer ++ tokens).size := by
    rw [Array.size_append]
    omega
  exact { h with
    carries := hcarries
    cursor_le := h.cursor_le.trans hle
    saved_le := fun s hs => (h.saved_le s hs).trans hle }

theorem framed (h : Mirrors stream rest base m a) (frames : List Activation) :
    Mirrors stream rest base { m with frames } { a with frames } :=
  { h with carries := h.carries.congr rfl rfl, frames_eq := rfl }

/-- Dropping tokens moves the beginning of the buffer, not the place in the stream. -/
theorem compact (h : Mirrors stream rest base m a) :
    ∃ base', Mirrors stream rest base' m.compact a ∧ base' + m.compact.cursor = base + m.cursor ∧
      m.compact.skipDepth = m.skipDepth := by
  unfold Machine.compact
  split
  · next hcompact =>
    have hsplits : m.splits = [] := List.isEmpty_iff.1 hcompact.1
    have hcursor := h.cursor_le
    have hsize : (m.buffer.extract (m.cursor - 1) m.buffer.size).size = m.buffer.size - (m.cursor - 1) := by
      rw [Array.size_extract, Nat.min_self]
    refine ⟨base + (m.cursor - 1), ⟨⟨fun {i t} hi => ?_, ?_⟩, ?_, ?_, h.frames_eq, ?_, h.current_eq,
      h.lastCase_eq, h.flag_eq⟩, ?_, rfl⟩
    · have hi' : m.buffer[m.cursor - 1 + i]? = some t := by
        rw [Array.getElem?_extract] at hi
        split at hi
        · exact hi
        · cases hi
      rw [Nat.add_assoc]
      exact h.carries.buffered hi'
    · obtain ⟨whole, hawaits, hdrain, hends⟩ := h.carries.coming
      refine ⟨whole, hawaits, ?_, hends⟩
      rw [hdrain, hsize]
      congr 1
      omega
    · rw [hsize]
      show 1 ≤ _
      omega
    · rw [hsplits]
      nofun
    · rw [h.splits_eq, hsplits]
      rfl
    · show base + (m.cursor - 1) + 1 = base + m.cursor
      omega
  · exact ⟨base, h, rfl, rfl⟩

end Mirrors

namespace Rests

theorem framed (h : Rests stream rest base m a) (frames : List Activation) :
    Rests stream rest base { m with frames } { a with frames } :=
  ⟨h.toMirrors.framed frames, h.idle, h.position_eq⟩

theorem stays (h : Rests stream rest base m a) (frames : List Activation) (lastCase : Int64) (flag : Bool) :
    Rests stream rest base { m with frames, lastCase, flag } { a with frames, lastCase, flag } :=
  { h with carries := h.carries.congr rfl rfl, frames_eq := rfl, lastCase_eq := rfl, flag_eq := rfl }

theorem flagged (h : Rests stream rest base m a) (frames : List Activation) (flag : Bool) :
    Rests stream rest base { m with frames, flag } { a with frames, flag } :=
  { h with carries := h.carries.congr rfl rfl, frames_eq := rfl, flag_eq := rfl }

theorem split (h : Rests stream rest base m a) {s s' : Split} (hs : s' = Split.shift base s)
    (hle : s.cursor ≤ m.buffer.size) :
    Rests stream rest base { m with splits := s :: m.splits } { a with splits := s' :: a.splits } := by
  refine ⟨⟨h.carries.congr rfl rfl, h.cursor_le, ?_, h.frames_eq, ?_, h.current_eq, h.lastCase_eq, h.flag_eq⟩,
    h.idle, h.position_eq⟩
  · intro s'' hs''
    rcases List.mem_cons.1 hs'' with rfl | hs''
    · exact hle
    · exact h.saved_le s'' hs''
  · rw [hs, h.splits_eq]
    rfl

theorem grows (h : Rests stream rest base m a) (hgrows : Grows m m') (hcarries : Carries stream rest base m') :
    Rests stream rest base m' a :=
  ⟨h.toMirrors.grows hgrows hcarries, hgrows.skipDepth_eq.trans h.idle, by
    rw [hgrows.cursor_eq]
    exact h.position_eq⟩

end Rests

/-! ## Steps -/

/-- Steps without a counterpart: those that wait, exceed a limit, or have nothing to push back. -/
def Next.excused : Next → Bool
  | .suspend | .fail (.limit _) | .fail (.malformed _ .nothingToPushBack) => true
  | _ => false

/-- A step has the outcome of the absolute machine, and shows its state again. -/
structure Realizes (stream : Stream) (rest : List UInt8) (s : Stepped) (o : Absolute.Outcome) : Prop where
  next_eq : s.next.excused = false → o.next = s.next
  rests : s.next = .run → ∀ a, o = .run a → ∃ base, Rests stream rest base s.machine a

namespace Realizes

theorem run (h : Rests stream rest base m a) (events : List Event) : Realizes stream rest ⟨m, events, .run⟩ (.run a) :=
  ⟨fun _ => rfl, fun _ a' ha' => by cases ha'; exact ⟨base, h⟩⟩

theorem after {s : Stepped} {o : Absolute.Outcome} (h : Realizes stream rest s o) (e : Event) :
    Realizes stream rest (s.after e) o :=
  ⟨h.next_eq, h.rests⟩

theorem defect (m : Machine) (pc : Nat) (d : Defect) : Realizes stream rest (.defect m pc d) (.fails pc d) :=
  ⟨fun _ => rfl, nofun⟩

theorem excused {s : Stepped} (h : s.next.excused = true) (o : Absolute.Outcome) : Realizes stream rest s o :=
  ⟨fun h' => absurd (h.symm.trans h') nofun, fun hrun => by
    rw [hrun] at h
    cases h⟩

theorem badText (m : Machine) : Realizes stream rest (.finish m (.invalid .invalidJson)) .badText :=
  ⟨fun _ => rfl, nofun⟩

end Realizes

theorem Rests.enter (h : Rests stream rest base m a) (exe : Executable) (pc : Nat) (proc : UInt32) :
    Realizes stream rest (m.enter exe pc proc) (a.enter exe pc proc) := by
  unfold Machine.enter Absolute.enter
  cases m.meter.checkDepth m.depth with
  | some e => exact .excused rfl _
  | none =>
    cases exe.procs[proc.toNat]? with
    | none => exact .defect m pc _
    | some p =>
      dsimp only
      rw [h.frames_eq]
      exact .run (h.framed _) _

theorem slot_cases (hframes : m.frames = top :: below) (i : UInt32) :
    (i.toNat < top.slots.size ∧ ∃ w, m.slot i = .ok w) ∨
      (¬ i.toNat < top.slots.size ∧ m.slot i = .error (.slotRange i top.proc)) := by
  rw [slot, hframes]
  dsimp only
  by_cases hlt : i.toNat < top.slots.size
  · rw [Array.getElem?_eq_getElem hlt]
    exact .inl ⟨hlt, _, rfl⟩
  · rw [Array.getElem?_eq_none (Nat.le_of_not_lt hlt)]
    exact .inr ⟨hlt, rfl⟩

theorem Rests.store (h : Rests stream rest base m a) (pc : Nat) (target : UInt32) (word : Int64)
    (events : List Event) : Realizes stream rest
      (.require m pc (m.slot target) fun _ => ⟨m.setSlot target word, events, .run⟩)
      (a.store pc target word) := by
  unfold Absolute.store
  rw [h.frames_eq]
  cases hframes : m.frames with
  | nil =>
    rw [slot, hframes]
    exact .defect m pc _
  | cons top below =>
    dsimp only
    rcases slot_cases hframes target with ⟨hlt, w, hslot⟩ | ⟨hlt, hslot⟩
    · rw [hslot, if_pos hlt]
      dsimp only [Stepped.require]
      rw [setSlot_eq hframes]
      exact .run (h.framed _) events
    · rw [hslot, if_neg hlt]
      exact .defect m pc _

theorem returned_shift (base : Nat) (s : Split) (code : Int64) :
    Split.returned (Split.shift base s) code = Split.shift base (Split.returned s code) := rfl

/-- A branch ends at the position where its split began. -/
theorem Rests.finishBranch (h : Rests stream rest base m a) (exe : Executable) (pc : Nat) (code : Int64) :
    Realizes stream rest (m.finishBranch exe pc code) (a.finishBranch exe pc code) := by
  unfold Absolute.finishBranch
  rw [h.splits_eq]
  cases hsplits : m.splits with
  | nil =>
    rw [Machine.finishBranch, hsplits]
    exact .defect m pc _
  | cons s outer =>
    have hsaved : s.cursor ≤ m.buffer.size := h.saved_le s (hsplits ▸ List.mem_cons_self ..)
    have houter : ∀ s' ∈ outer, s'.cursor ≤ m.buffer.size :=
      fun s' hs' => h.saved_le s' (hsplits ▸ List.mem_cons_of_mem _ hs')
    rw [finishBranch_cons exe pc hsplits]
    simp only [List.map_cons, returned_shift]
    have hrestored : ∀ splits : List Split, (∀ s ∈ splits, s.cursor ≤ m.buffer.size) →
        Rests stream rest base (m.restore (Split.returned s code) splits)
          { a with
            position := (Split.shift base (Split.returned s code)).cursor
            current := (Split.shift base (Split.returned s code)).token
            lastCase := (Split.shift base (Split.returned s code)).lastCase
            splits := splits.map (Split.shift base) } := fun splits hsplits =>
      ⟨⟨h.carries.congr rfl rfl, hsaved, hsplits, h.frames_eq, rfl, rfl, rfl, h.flag_eq⟩, rfl, rfl⟩
    rw [show (Split.shift base (Split.returned s code)).split = (Split.returned s code).split from rfl,
      show (Split.shift base (Split.returned s code)).branch = (Split.returned s code).branch from rfl]
    cases (exe.splits[(Split.returned s code).split.toNat]?).bind (·[(Split.returned s code).branch]?) with
    | some proc =>
      refine (hrestored (Split.returned s code :: outer) ?_).enter exe pc proc
      intro s' hs'
      rcases List.mem_cons.1 hs' with rfl | hs'
      · exact hsaved
      · exact houter s' hs'
    | none => exact ((hrestored outer houter).store pc _ _ []).after _

theorem Rests.unwind (exe : Executable) (pc : Nat) (code : Int64) (frames : List Activation) :
    ∀ {m : Machine} {a : Absolute}, Rests stream rest base m a →
      Realizes stream rest (unwind exe pc code m frames) (a.unwind exe pc code frames) := by
  induction frames with
  | nil => exact fun _ => .defect _ 0 _
  | cons x below ih =>
    intro m a h
    have hbelow := h.framed below
    have hdepths : a.splits.head?.any (·.depth = below.length) = m.splits.head?.any (·.depth = below.length) := by
      rw [h.splits_eq]
      cases m.splits <;> rfl
    unfold Machine.unwind Absolute.unwind
    dsimp only
    rw [hdepths]
    split
    · exact (hbelow.finishBranch exe pc code).after _
    · cases below with
      | nil =>
        refine Realizes.after ?_ _
        refine ⟨fun _ => ?_, ?_⟩
        · rw [Absolute.Outcome.next]
          cases verdictOf code <;> rfl
        · rintro _ _ ⟨⟩
      | cons y below =>
        dsimp only
        split
        · exact .run hbelow _
        · exact (ih hbelow).after _

theorem Rests.startSplit (h : Rests stream rest base m a) (hframes : m.frames = top :: below)
    (exe : Executable) (pc : Nat) (bits : Bool) (split target : UInt32) :
    Realizes stream rest (m.startSplit exe pc bits split target)
      (a.startSplit exe pc bits split target top below) := by
  unfold Machine.startSplit Absolute.startSplit
  rcases slot_cases hframes target with ⟨hlt, w, hslot⟩ | ⟨hlt, hslot⟩
  · have hadvance : Rests stream rest base m.advance { a with frames := { top with pc := top.pc + 1 } :: below } := by
      rw [advance_eq hframes]
      exact h.framed _
    have hframes' : m.advance.frames = { top with pc := top.pc + 1 } :: below := by rw [advance_eq hframes]
    rw [hslot, if_neg (Nat.not_le_of_lt hlt)]
    dsimp only [Stepped.require]
    split
    · exact .defect m pc _
    · cases ((exe.splits[split.toNat]?).getD #[])[0]? with
      | none =>
        dsimp only [Absolute.store]
        rw [if_pos hlt, setSlot_eq hframes']
        exact .run (hadvance.framed _) _
      | some proc =>
        refine Realizes.after ?_ _
        refine (hadvance.split ?_ hadvance.cursor_le).enter exe pc proc
        rw [Split.shift, depth, hframes', ← hadvance.position_eq, ← hadvance.current_eq, ← hadvance.lastCase_eq]
        rfl
  · rw [hslot, if_pos (Nat.le_of_not_lt hlt)]
    exact .defect m pc _

/-! ## Instructions that read -/

theorem Rests.readToken (h : Rests stream rest base m a) : match m.readToken.2 with
    | .ready => stream.tokenAt a.position = some m.readToken.1.current ∧ ∃ base', Rests stream rest base' m.readToken.1
        { a with current := m.readToken.1.current, position := a.position + 1 }
    | .needMore => Rests stream rest base m.readToken.1 a
    | .badText => stream.tokenAt a.position = none
    | .limit _ => True := by
  have hfits := ensure_fits h.carries h.cursor_le
  have hgrows := ensure_grows m.cursor m
  rw [readToken_eq, h.position_eq]
  cases hfetch : (m.ensure m.cursor).2 with
  | ready =>
    rw [hfetch] at hfits
    obtain ⟨hcarries, hplace⟩ := hfits
    have hgrown := h.grows hgrows hcarries
    have hcursor := hgrows.cursor_eq
    rw [if_pos rfl]
    dsimp only
    generalize (m.ensure m.cursor).1 = m' at hcarries hplace hgrown hcursor
    rw [← hcursor] at hplace ⊢
    have hmoved : Mirrors stream rest base { m' with current := m'.tokenAt m'.cursor, cursor := m'.cursor + 1 }
        { a with current := m'.tokenAt m'.cursor } :=
      { hgrown with carries := hcarries.congr rfl rfl, cursor_le := hplace, current_eq := rfl }
    obtain ⟨base', hcompact, hposition, hskip⟩ := hmoved.compact
    have hcurrent : m'.take.current = m'.tokenAt m'.cursor := hcompact.current_eq.symm
    rw [hcurrent]
    refine ⟨hcarries.tokenAt_eq hplace, base', { hcompact with }, hskip.trans hgrown.idle, ?_⟩
    rw [take, hposition, Nat.add_assoc]
  | needMore =>
    rw [hfetch] at hfits
    rw [if_neg (by rintro ⟨⟩)]
    rw [hfetch]
    exact h.grows hgrows hfits
  | badText =>
    rw [hfetch] at hfits
    rw [if_neg (by rintro ⟨⟩)]
    rw [hfetch]
    exact hfits
  | limit e =>
    rw [if_neg (by rintro ⟨⟩)]
    rw [hfetch]
    trivial

/-- A skip in progress: the position behind it is the position behind the rest of it. -/
structure Skips (stream : Stream) (rest : List UInt8) (base : Nat) (m : Machine) (a : Absolute) : Prop
    extends Mirrors stream rest base m a where
  behind_eq : stream.behind 1 a.position = stream.behind m.skipDepth (base + m.cursor)

def Fetch.Skipped (stream : Stream) (rest : List UInt8) (a : Absolute) (m : Machine) : Fetch → Prop
  | .ready => ∃ base position, stream.behind 1 a.position = some position ∧ Rests stream rest base m { a with position }
  | .needMore => ∃ base, Skips stream rest base m a ∧ m.skipDepth ≠ 0
  | .badText => stream.behind 1 a.position = none
  | .limit _ => True

theorem Skips.skipAll (h : Skips stream rest base m a) : m.skipAll.2.Skipped stream rest a m.skipAll.1 := by
  refine skipAll_induction (P := fun m => Skips stream rest base m a)
    (Q := fun r => r.2.Skipped stream rest a r.1) ?_ ?_ ?_ h.carries.sound h
  · intro m h hdepth hready
    have hfits := ensure_fits h.carries h.cursor_le
    have hgrows := ensure_grows m.cursor m
    have hcursor := hgrows.cursor_eq
    have hskip := hgrows.skipDepth_eq
    rw [hready] at hfits
    obtain ⟨hcarries, hplace⟩ := hfits
    have hgrown := h.toMirrors.grows hgrows hcarries
    generalize (m.ensure m.cursor).1 = m' at hcarries hplace hgrown hcursor hskip
    rw [← hcursor] at hplace
    refine ⟨{ hgrown with carries := hcarries.congr rfl rfl, cursor_le := hplace }, ?_⟩
    rw [h.behind_eq, Stream.behind_of_ne_zero stream hdepth, ← hcursor, hcarries.tokenAt_eq hplace,
      Option.bind_some, pass, hskip, Nat.add_assoc]
  · intro m h hdepth hstop
    have hfits := ensure_fits h.carries h.cursor_le
    have hgrows := ensure_grows m.cursor m
    cases hfetch : (m.ensure m.cursor).2 with
    | ready => exact absurd hfetch hstop
    | needMore =>
      rw [hfetch] at hfits
      have hgrown := h.toMirrors.grows hgrows hfits
      rw [← hgrows.skipDepth_eq] at hdepth
      refine ⟨base, ⟨hgrown, ?_⟩, hdepth⟩
      rw [hgrows.skipDepth_eq, hgrows.cursor_eq]
      exact h.behind_eq
    | badText =>
      rw [hfetch] at hfits
      show stream.behind 1 a.position = none
      rw [h.behind_eq, Stream.behind_of_ne_zero stream hdepth, show stream.tokenAt _ = none from hfits]
      rfl
    | limit e => trivial
  · intro m h hover
    obtain ⟨base', hcompact, hposition, hskip⟩ := h.toMirrors.compact
    refine ⟨base', base + m.cursor, ?_, { hcompact with }, hskip.trans hover, hposition.symm⟩
    rw [h.behind_eq, hover, Stream.behind_zero]

/-- The coming value is looked at, and the position stays. -/
def Scan.Sees (stream : Stream) (rest : List UInt8) (base position : Nat) (m : Machine) : Scan → Prop
  | .value v => Carries stream rest base m ∧ stream.value? [] position = some v
  | .needMore => Carries stream rest base m
  | .badText => stream.value? [] position = none
  | .limit _ => True

theorem Rests.scan (h : Rests stream rest base m a) : m.scan.2.Sees stream rest base a.position m.scan.1 := by
  rw [scan_eq h.carries.sound]
  refine scanAll_induction (P := fun place stack m => Carries stream rest base m ∧ place ≤ m.buffer.size ∧
      stream.value? [] a.position = stream.value? stack (base + place))
    (Q := fun r => r.2.Sees stream rest base a.position r.1) ?_ ?_ ?_ ?_ h.carries.sound
    ⟨h.carries, h.cursor_le, by rw [h.position_eq]⟩
  · rintro place stack stack' m ⟨hcarries, hplace, hvalue⟩ hready hstep
    have hfits := ensure_fits hcarries hplace
    rw [hready] at hfits
    obtain ⟨hcarries', hplace'⟩ := hfits
    refine ⟨hcarries', hplace', ?_⟩
    rw [hvalue, Stream.value?_eq, hcarries'.tokenAt_eq hplace', Option.bind_some, hstep, Nat.add_assoc]
  · rintro place stack m v ⟨hcarries, hplace, hvalue⟩ hready hstep
    have hfits := ensure_fits hcarries hplace
    rw [hready] at hfits
    obtain ⟨hcarries', hplace'⟩ := hfits
    refine ⟨hcarries', ?_⟩
    rw [hvalue, Stream.value?_eq, hcarries'.tokenAt_eq hplace', Option.bind_some, hstep]
  · rintro place stack m ⟨hcarries, hplace, hvalue⟩ hready hstep
    have hfits := ensure_fits hcarries hplace
    rw [hready] at hfits
    obtain ⟨hcarries', hplace'⟩ := hfits
    show stream.value? [] a.position = none
    rw [hvalue, Stream.value?_eq, hcarries'.tokenAt_eq hplace', Option.bind_some, hstep]
  · rintro place stack m r ⟨hcarries, hplace, hvalue⟩ hfetch hstop
    have hfits := ensure_fits hcarries hplace
    rw [hfetch] at hfits
    cases r with
    | value v => exact absurd rfl hstop
    | needMore => exact hfits
    | badText =>
      show stream.value? [] a.position = none
      rw [hvalue, Stream.value?_eq, show stream.tokenAt _ = none from hfits]
      rfl
    | limit e => trivial

/-- The machine shows a state of the absolute machine; an unfinished skip shows where it began. -/
def Shows (exe : Executable) (stream : Stream) (rest : List UInt8) (m : Machine) (a : Absolute) : Prop :=
  (∃ base, Rests stream rest base m a) ∨ m.skipDepth ≠ 0 ∧ a.current.kind.opens = true ∧
      (∃ op, m.upNext exe = some op ∧ op.code = .consume) ∧ ∃ base, Skips stream rest base m a

structure Shown (exe : Executable) (stream : Stream) (rest : List UInt8) (a : Absolute) (s : Stepped)
    (o : Absolute.Outcome) : Prop where
  realizes : Realizes stream rest s o
  waits : s.next = .suspend → Shows exe stream rest s.machine a

variable {exe : Executable} {o : Absolute.Outcome} {op : Op} {rest' : List UInt8}

theorem Realizes.shown {s : Stepped}
    (h : Realizes stream rest s o) (hnext : s.next ≠ .suspend) : Shown exe stream rest a s o :=
  ⟨h, fun hsuspend => absurd hsuspend hnext⟩

theorem execute_going (exe : Executable) (pc : Nat) (hreads : op.code.reads = false)
    (hframes : m.frames = top :: below) : (m.execute exe pc op).next ≠ .suspend :=
  (execute_alike exe pc m.input m.meter op hreads hframes).eq_relabel.1

theorem Rests.advance (h : Rests stream rest base m a) (hframes : m.frames = top :: below)
    (events : List Event) : Realizes stream rest ⟨m.advance, events, .run⟩
      (.run { a with frames := { top with pc := top.pc + 1 } :: below }) := by
  rw [advance_eq hframes]
  exact .run (h.framed _) events

theorem Skips.consume (h : Skips stream rest base m' a)
    (hconsume : m.consume = m'.skipAll) (hopens : a.current.kind.opens = true)
    (hframes : m.frames = top :: below) (hop : exe.ops[top.pc]? = some op) (hcode : op.code = .consume) :
    Shown exe stream rest a (m.execute exe top.pc op) (a.execute exe stream op top below) := by
  have hskipped := h.skipAll
  have hkept := (consume_kept m).frames_eq
  unfold Machine.execute Absolute.execute
  rw [hcode]
  dsimp only
  rw [if_pos hopens]
  rw [← hconsume] at hskipped
  rcases hfetch : m.consume with ⟨k, _ | _ | _ | e⟩
  all_goals rw [hfetch] at hskipped hkept
  case ready =>
    obtain ⟨base', position, hbehind, hrests⟩ := hskipped
    rw [hbehind]
    exact (hrests.advance (hkept.trans hframes) []).shown (by rintro ⟨⟩)
  case needMore =>
    obtain ⟨base', hskips, hdepth⟩ := hskipped
    refine ⟨.excused rfl _, fun _ => .inr ⟨hdepth, hopens, ⟨op, ?_, hcode⟩, base', hskips⟩⟩
    exact upNext_eq (hkept.trans hframes) hop
  case badText =>
    rw [show stream.behind 1 a.position = none from hskipped]
    exact (Realizes.badText k).shown (by rintro ⟨⟩)
  case limit => exact (Realizes.excused rfl _).shown (by rintro ⟨⟩)

/-- An instruction at the position of the absolute machine. -/
theorem Rests.execute (h : Rests stream rest base m a)
    (hframes : m.frames = top :: below) (hop : exe.ops[top.pc]? = some op) :
    Shown exe stream rest a (m.execute exe top.pc op) (a.execute exe stream op top below) := by
  cases hlocal : op.code.isLocal with
  | true =>
    have heffect : effect exe top.pc op top a.current a.lastCase a.flag =
        effect exe top.pc op top m.current m.lastCase m.flag := by
      rw [h.current_eq, h.lastCase_eq, h.flag_eq]
    rw [Machine.execute_local exe top.pc hlocal hframes, Absolute.execute_local exe stream hlocal, heffect]
    cases effect exe top.pc op top m.current m.lastCase m.flag with
    | stays top' lastCase flag =>
      exact (Realizes.run (h.stays (top' :: below) lastCase flag) []).shown (by rintro ⟨⟩)
    | fails d => exact (Realizes.defect m top.pc d).shown (by rintro ⟨⟩)
  | false =>
    cases hcode : op.code with
    | consume =>
      cases hopens : a.current.kind.opens with
      | true =>
        have hbegun : Skips stream rest base m.beginSkip a := by
          refine ⟨{ h with carries := h.carries.congr rfl rfl }, ?_⟩
          rw [h.position_eq, beginSkip, if_pos h.idle]
        refine hbegun.consume ?_ hopens hframes hop hcode
        rw [consume_eq, if_neg (fun hnot => by rw [← h.current_eq, hopens] at hnot; cases hnot.2)]
      | false =>
        have hconsume : m.consume = (m, .ready) := by
          rw [consume_eq, if_pos ⟨h.idle, by rw [← h.current_eq, hopens]⟩]
        unfold Machine.execute Absolute.execute
        rw [hcode, hconsume]
        dsimp only
        rw [hopens]
        exact (h.advance hframes []).shown (by rintro ⟨⟩)
    | call =>
      refine Realizes.shown ?_ (execute_going exe top.pc (by rw [hcode]; rfl) hframes)
      unfold Machine.execute Absolute.execute
      rw [hcode]
      cases op.a with
      | proc p =>
        dsimp only
        rw [advance_eq hframes]
        exact (h.framed _).enter exe top.pc p
      | _ => exact .defect m top.pc _
    | ret =>
      refine Realizes.shown ?_ (execute_going exe top.pc (by rw [hcode]; rfl) hframes)
      have hword : (solo top a.current a.lastCase a.flag).word op.a = m.word op.a := by
        rw [h.current_eq, h.lastCase_eq, h.flag_eq, word_solo hframes]
      unfold Machine.execute Absolute.execute
      rw [hcode]
      dsimp only
      rw [hword, hframes]
      cases m.word op.a with
      | ok code => exact Rests.unwind exe top.pc code (top :: below) h
      | error d => exact .defect m top.pc d
    | split | splitBits =>
      refine Realizes.shown ?_ (execute_going exe top.pc (by rw [hcode]; rfl) hframes)
      unfold Machine.execute Absolute.execute
      rw [hcode]
      cases op.a with
      | split s =>
        cases op.b with
        | slot target => exact h.startSplit hframes exe top.pc _ s target
        | _ => exact .defect m top.pc _
      | _ => exact .defect m top.pc _
    | token =>
      have hread := h.readToken
      have hkept := (readToken_kept m).frames_eq
      unfold Machine.execute Absolute.execute
      rw [hcode]
      dsimp only
      rcases hfetch : m.readToken with ⟨k, _ | _ | _ | e⟩
      all_goals rw [hfetch] at hread hkept
      case ready =>
        obtain ⟨htoken, base', hrests⟩ := hread
        rw [htoken]
        exact (hrests.advance (hkept.trans hframes) _).shown (by rintro ⟨⟩)
      case needMore => exact ⟨.excused rfl _, fun _ => .inl ⟨base, hread⟩⟩
      case badText =>
        rw [show stream.tokenAt a.position = none from hread]
        exact (Realizes.badText k).shown (by rintro ⟨⟩)
      case limit => exact (Realizes.excused rfl _).shown (by rintro ⟨⟩)
    | untoken =>
      unfold Machine.execute Absolute.execute
      rw [hcode]
      dsimp only
      split
      · exact (Realizes.excused rfl _).shown (by rintro ⟨⟩)
      · next hcursor =>
        rw [if_neg (by rw [h.position_eq]; omega)]
        have hposition : a.position - 1 = base + (m.cursor - 1) := by
          rw [h.position_eq]
          omega
        have hback : Rests stream rest base { m with cursor := m.cursor - 1 } { a with position := a.position - 1 } :=
          { h with
            carries := h.carries.congr rfl rfl
            cursor_le := (Nat.sub_le ..).trans h.cursor_le
            position_eq := hposition }
        exact (hback.advance hframes []).shown (by rintro ⟨⟩)
    | unique =>
      have hsees := h.scan
      have hgrows : Grows m m.scan.1 := scanFrom_grows m.lookahead m.cursor [] m
      unfold Machine.execute Absolute.execute
      rw [hcode]
      cases op.a with
      | slot i =>
        dsimp only
        rw [markUnique_eq]
        rcases hscan : m.scan with ⟨k, v | _ | _ | e⟩
        all_goals rw [hscan] at hsees hgrows
        case value =>
          obtain ⟨hcarries, hvalue⟩ := hsees
          have hrests := h.grows hgrows hcarries
          have hkept := hgrows.kept.frames_eq.trans hframes
          rw [hvalue]
          dsimp only
          rcases slot_cases hkept i with ⟨hlt, w, hslot⟩ | ⟨hlt, hslot⟩
          · rw [mark_ok hkept top.pc hslot, if_pos hlt]
            exact (Realizes.run (hrests.flagged _ _) []).shown (by rintro ⟨⟩)
          · rw [mark_error top.pc hslot, if_neg hlt]
            exact (Realizes.defect k top.pc _).shown (by rintro ⟨⟩)
        case needMore => exact ⟨.excused rfl _, fun _ => .inl ⟨base, h.grows hgrows hsees⟩⟩
        case badText =>
          rw [show stream.value? [] a.position = none from hsees]
          exact (Realizes.badText k).shown (by rintro ⟨⟩)
        case limit => exact (Realizes.excused rfl _).shown (by rintro ⟨⟩)
      | _ => exact (Realizes.defect m top.pc _).shown (by rintro ⟨⟩)
    | _ =>
      rw [hcode] at hlocal
      cases hlocal

theorem Shows.execute (h : Shows exe stream rest m a)
    (hframes : m.frames = top :: below) (hop : exe.ops[top.pc]? = some op) :
    Shown exe stream rest a (m.execute exe top.pc op) (a.execute exe stream op top below) := by
  rcases h with ⟨base, h⟩ | ⟨hdepth, hopens, ⟨op', hop', hcode⟩, base, h⟩
  · exact h.execute hframes hop
  · rw [upNext_eq hframes hop] at hop'
    cases hop'
    refine h.consume ?_ hopens hframes hop hcode
    rw [consume_eq, if_neg (fun h => hdepth h.1), beginSkip_of_open hdepth]

theorem Mirrors.relabel (h : Mirrors stream rest base m a) (input : Lexer) (meter : Meter)
    (hinput : ∀ whole, Lexer.Awaits rest true m.input whole → Lexer.Awaits rest' true input whole) :
    Mirrors stream rest' base (m.relabel input meter) a := by
  obtain ⟨whole, hawaits, hdrain, hends⟩ := h.carries.coming
  exact { h with carries := ⟨h.carries.buffered, whole, hinput whole hawaits, hdrain, hends⟩ }

theorem Shows.relabel (h : Shows exe stream rest m a) (input : Lexer) (meter : Meter)
    (hinput : ∀ whole, Lexer.Awaits rest true m.input whole → Lexer.Awaits rest' true input whole) :
    Shows exe stream rest' (m.relabel input meter) a := by
  rcases h with ⟨base, h⟩ | ⟨hdepth, hopens, hop, base, h⟩
  · exact .inl ⟨base, h.toMirrors.relabel input meter hinput, h.idle, h.position_eq⟩
  · exact .inr ⟨hdepth, hopens, hop, base, h.toMirrors.relabel input meter hinput, h.behind_eq⟩

/-- A step with the current instruction, if it is not stopped by the meter. -/
theorem Shows.step (h : Shows exe stream rest m a) : Shown exe stream rest a (m.step exe) (a.step exe stream) := by
  have hframes_eq : a.frames = m.frames := by
    rcases h with ⟨base, h⟩ | ⟨-, -, -, base, h⟩ <;> exact h.frames_eq
  unfold Absolute.step
  rw [hframes_eq]
  cases hframes : m.frames with
  | nil =>
    rw [step_nil exe hframes]
    exact (Realizes.defect m 0 _).shown (by rintro ⟨⟩)
  | cons top below =>
    dsimp only
    cases hop : exe.ops[top.pc]? with
    | none =>
      rw [step_pastEnd exe hframes hop]
      exact (Realizes.defect m top.pc _).shown (by rintro ⟨⟩)
    | some op =>
      rw [step_op exe hframes hop]
      cases m.meter.tick.2 with
      | some e => exact (Realizes.excused rfl _).shown (by rintro ⟨⟩)
      | none =>
        have hshown := (h.relabel m.input m.meter.tick.1 fun _ => id).execute hframes hop
        exact ⟨hshown.realizes.after _, hshown.waits⟩

/-! ## Runs -/

/-- A machine that has run so many instructions shows the absolute machine after as many steps. -/
def ShowsAfter (exe : Executable) (stream : Stream) (rest : List UInt8) (n : Nat) (m : Machine) : Prop :=
  m.started = false ∧ n = 0 ∧ (∃ base, Rests stream rest base m {}) ∨
    m.started = true ∧ ∃ a, Absolute.after exe stream n = some a ∧ Shows exe stream rest m a

theorem rests_start (meter : Meter) (rest : List UInt8) : Rests (Stream.ofText rest) rest 0 { meter } {} := by
  refine ⟨⟨⟨nofun, Lexer.whole rest, ?_, ?_, ?_⟩, Nat.le_refl _, nofun, rfl, rfl, rfl, rfl, rfl⟩, rfl, rfl⟩
  · exact Lexer.Awaits.extended Lexer.Sound.empty
  · rfl
  · have hclosed := Lexer.drain_closed (Lexer.whole_sound rest) rfl
    unfold Stream.ofText
    dsimp only
    rcases hclosed with heof | ⟨e, herror⟩
    · rw [heof]
      rfl
    · rw [herror]
      exact ⟨e, rfl⟩

theorem ShowsAfter.relabel {n : Nat} (h : ShowsAfter exe stream rest n m) (input : Lexer) (meter : Meter)
    (hinput : ∀ whole, Lexer.Awaits rest true m.input whole → Lexer.Awaits rest' true input whole) :
    ShowsAfter exe stream rest' n (m.relabel input meter) := by
  rcases h with ⟨hstarted, hn, base, h⟩ | ⟨hstarted, a, hafter, h⟩
  · exact .inl ⟨hstarted, hn, base, h.toMirrors.relabel input meter hinput, h.idle, h.position_eq⟩
  · exact .inr ⟨hstarted, a, hafter, h.relabel input meter hinput⟩

theorem awaits_close {input whole : Lexer} (h : Lexer.Awaits [] true input whole) :
    Lexer.Awaits [] true input.close whole := by
  obtain ⟨hleft, hright, hsame⟩ := h.close
  refine ⟨hleft, hright, ?_⟩
  rwa [Lexer.extend_closed rfl] at hsame ⊢

theorem outcome_run (h : o.next = .run) : ∃ a, o = .run a := by
  cases o with
  | run a => exact ⟨a, rfl⟩
  | returns pc code =>
    rw [Absolute.Outcome.next] at h
    cases hverdict : verdictOf code <;> rw [hverdict] at h <;> cases h
  | badText => cases h
  | fails pc d => cases h

theorem Realizes.of_run {s : Stepped} (h : Realizes stream rest s o)
    (hnext : s.next = .run) : ∃ a base, o = .run a ∧ Rests stream rest base s.machine a := by
  have hexcused : s.next.excused = false := by
    rw [hnext]
    rfl
  obtain ⟨a, ha⟩ := outcome_run ((h.next_eq hexcused).trans hnext)
  obtain ⟨base, hrests⟩ := h.rests hnext a ha
  exact ⟨a, base, ha, hrests⟩

/-- Every state that is reached shows the absolute machine with the stream of the whole text, whatever the
rest of the text is. -/
theorem Reaches.shows {meter : Meter} {n : Nat} {text : List UInt8} (h : Reaches exe meter n text m) :
    ∀ {rest : List UInt8}, (m.input.closed = true → rest = []) →
      ShowsAfter exe (Stream.ofText (text ++ rest)) rest n m := by
  induction h with
  | start => exact fun _ => .inl ⟨rfl, rfl, 0, rests_start meter _⟩
  | @begins n text m h hstarted hnext ih =>
    intro rest hrest
    rw [move, if_neg (by rw [hstarted]; rintro ⟨⟩)] at hnext hrest ⊢
    have hinput : (enter exe 0 0 { m with started := true }).machine.input = m.input := by
      unfold enter
      split
      · rfl
      · split <;> rfl
    rw [hinput] at hrest
    rcases ih hrest with ⟨-, rfl, base, hrests⟩ | ⟨hstarted', -⟩
    · have hbegun : Rests (Stream.ofText (text ++ rest)) rest base { m with started := true } {} :=
        { hrests with carries := hrests.carries.congr rfl rfl }
      obtain ⟨a, base', ha, hentered⟩ := (hbegun.enter exe 0 0).of_run hnext
      refine .inr ⟨(enter_proceeds exe 0 { m with started := true } 0).started_eq, a, ?_, .inl ⟨base', hentered⟩⟩
      rw [Absolute.after, ha]
    · rw [hstarted] at hstarted'
      cases hstarted'
  | @steps n text m h hstarted hnext ih =>
    intro rest hrest
    rw [(step_onward exe m).closed_eq h.sound] at hrest
    rcases ih hrest with ⟨hstarted', -⟩ | ⟨-, a, hafter, hshows⟩
    · rw [hstarted] at hstarted'
      cases hstarted'
    · obtain ⟨a', base, ha', hrests⟩ := hshows.step.realizes.of_run hnext
      refine .inr ⟨(step_settles exe m).started_eq.trans hstarted, a', ?_, .inl ⟨base, hrests⟩⟩
      rw [Absolute.after, hafter]
      dsimp only
      rw [ha']
  | @waits n text m h hstarted hnext ih =>
    intro rest hrest
    rw [(step_onward exe m).closed_eq h.sound] at hrest
    rcases ih hrest with ⟨hstarted', -⟩ | ⟨-, a, hafter, hshows⟩
    · rw [hstarted] at hstarted'
      cases hstarted'
    · exact .inr ⟨(step_settles exe m).started_eq.trans hstarted, a, hafter, hshows.step.waits hnext⟩
  | @feed n text m h hopen bytes ih =>
    intro rest hrest
    have hshows := @ih (bytes ++ rest) (by rw [hopen]; rintro ⟨⟩)
    rw [← List.append_assoc] at hshows
    exact hshows.relabel (m.input.feed bytes) m.meter fun _ => Lexer.Awaits.feed
  | @close n text m h ih =>
    intro rest hrest
    obtain rfl : rest = [] := hrest rfl
    exact (ih fun _ => rfl).relabel m.input.close m.meter fun _ => awaits_close
  | @clock n text m h time ih =>
    intro rest hrest
    exact (ih hrest).relabel m.input (m.meter.atTime time) fun _ => id

/-! ## Pushing back -/

end Machine

namespace Session

open Machine (Shows)

variable {σ : Type}

end Session

end JsonSieve
